/-
# Certificate chains

The trust store and `verify_chain` of `crypto/ca_store.rs`. Signature verification is a
parameter. A chain that is accepted is sound exactly when four things hold that the function
does not check: names, the last certificate, a lone certificate and unreadable times.
-/

import Mathlib.Data.Prod.Lex
import SmartOs.Crypto.X509

namespace SmartOs.Crypto

open CS List Certificate

/-! ## The store -/

structure TrustAnchor where
  subject : Name
  publicKey : PublicKey

structure CaStore where
  anchors : List TrustAnchor

def subjectsMatch (a b : Name) : Bool :=
  a.length == b.length && (a.zip b).all fun ((ao, av), (bo, bv)) =>
    ao == bo && eqIgnoreAsciiCase av.toList bv.toList

namespace CaStore

def findAnchor (store : CaStore) (issuer : Name) : Option TrustAnchor :=
  store.anchors.find? fun anchor => subjectsMatch anchor.subject issuer

end CaStore

/-! ## Signatures -/

/-- The verification functions for the two kinds of keys, on bytes. -/
structure Verifiers where
  /-- Modulus and signature of 256 bytes, exponent, message. -/
  rsa : (modulus exponent signature message : List UInt8) → Bool
  /-- Uncompressed point, message, `r` and `s` of 32 bytes. -/
  ecdsa : (point message r s : List UInt8) → Bool

/-- The bytes at the end of an array of zeros. -/
def padLeft (size : ℕ) (bytes : List UInt8) : List UInt8 :=
  replicate (size - bytes.length) 0 ++ bytes

/-- An integer of a signature as an array of 32 bytes. -/
def scalarBytes (content : List UInt8) : List UInt8 :=
  let src := if content.head? = some 0 then content.tail else content
  padLeft 32 (src.take 32)

def parseEcdsaSig (sig : List UInt8) : Option (List UInt8 × List UInt8) := do
  let (seq, _) ← parseTlv sig
  if seq.tag ≠ tagSequence then none
  else
    let (r, rest) ← parseTlv seq.content
    let (s, _) ← parseTlv rest
    if r.tag ≠ tagInt ∨ s.tag ≠ tagInt then none
    else some (scalarBytes r.content, scalarBytes s.content)

def p256Oid : String := "1.2.840.10045.3.1.7"

def verifyCertSignature (verifiers : Verifiers) (cert : Certificate) : PublicKey → Bool
  | .rsa modulus exponent =>
    if modulus.length < 256 then false
    else if cert.signature.length > 256 then false
    else verifiers.rsa (modulus.drop (modulus.length - 256)) exponent (padLeft 256 cert.signature)
      cert.tbsRaw
  | .ec curveOid point =>
    if curveOid ≠ p256Oid then false
    else
      match parseEcdsaSig cert.signature with
      | some (r, s) => verifiers.ecdsa point cert.tbsRaw r s
      | none => false
  | .unknown _ => false

/-! ## Chains -/

inductive VerifyError where
  | emptyChain
  | untrustedRoot
  | expired
  | notCa
  | badSignature (index : ℕ)
  | hostnameMismatch
  | pathLengthExceeded
  deriving DecidableEq

/-- The checks that can fail with an error or a panic. -/
abbrev Verify := Except (Abort VerifyError)

/-- Stop with the error if the condition holds. -/
def failIf (condition : Bool) (e : VerifyError) : Verify Unit :=
  if condition then throw (.error e) else pure ()

def eitherExpired (subject issuer : Certificate) (now : Time) : Verify Bool := do
  if ← subject.isExpired now then return true
  issuer.isExpired now

/-- One round of the loop: is the certificate signed by the next one? -/
def checkLink (verifiers : Verifiers) (now : Time) (chain : List Certificate) (i : ℕ) :
    Verify Unit :=
  match chain[i]?, chain[i + 1]? with
  | some subject, some issuer => do
    failIf (!issuer.isCa && i + 1 < chain.length - 1) .notCa
    failIf (issuer.pathLen.any (i > ·.toNat)) .pathLengthExceeded
    failIf (← eitherExpired subject issuer now) .expired
    failIf (!verifyCertSignature verifiers subject issuer.publicKey) (.badSignature i)
  | _, _ => throw .panic

/-- The end of the chain: the last certificate and the store. -/
def checkAnchor (verifiers : Verifiers) (store : CaStore) (last : Certificate) (index : ℕ) :
    Verify Unit :=
  match store.findAnchor last.issuer with
  | some anchor =>
    failIf (!verifyCertSignature verifiers last anchor.publicKey) (.badSignature index)
  | none => throw (.error .untrustedRoot)

def verifyChain (verifiers : Verifiers) (now : Time) (chain : List Certificate)
    (hostname : String) (store : CaStore) : Verify Unit :=
  match chain.head?, chain.getLast? with
  | some leaf, some last => do
    failIf (!leaf.matchesHostname hostname) .hostnameMismatch
    (range (chain.length - 1)).forM (checkLink verifiers now chain)
    checkAnchor verifiers store last (chain.length - 1)
  | _, _ => throw (.error .emptyChain)

/-! ## What the checks say -/

variable {verifiers : Verifiers} {now : Time} {chain : List Certificate} {hostname : String}
  {store : CaStore} {cert : Certificate}

theorem failIf_eq_ok_iff {condition : Bool} {e : VerifyError} :
    failIf condition e = .ok () ↔ condition = false := by
  cases condition <;> simp [failIf, pure, Except.pure]

theorem of_eitherExpired_eq_ok {subject issuer : Certificate}
    (ok : eitherExpired subject issuer now = .ok false) :
    subject.isExpired now = (.ok false : Verify Bool) ∧
      issuer.isExpired now = (.ok false : Verify Bool) := by
  obtain ⟨expired, first, second⟩ := except_bind_eq_ok_iff.mp ok
  cases expired with
  | true => cases second
  | false => exact ⟨first, second⟩

theorem of_checkLink_eq_ok {i : ℕ} (ok : checkLink verifiers now chain i = .ok ()) :
    ∃ subject issuer, chain[i]? = some subject ∧ chain[i + 1]? = some issuer ∧
      (i + 1 < chain.length - 1 → issuer.isCa) ∧ (∀ max ∈ issuer.pathLen, i ≤ max.toNat) ∧
      subject.isExpired now = (.ok false : Verify Bool) ∧
      issuer.isExpired now = (.ok false : Verify Bool) ∧
      verifyCertSignature verifiers subject issuer.publicKey := by
  unfold checkLink at ok
  split at ok
  · rename_i subject issuer first second
    obtain ⟨_, authority, ok⟩ := except_bind_eq_ok_iff.mp ok
    obtain ⟨_, depth, ok⟩ := except_bind_eq_ok_iff.mp ok
    obtain ⟨expired, read, ok⟩ := except_bind_eq_ok_iff.mp ok
    obtain ⟨_, fresh, signed⟩ := except_bind_eq_ok_iff.mp ok
    rw [failIf_eq_ok_iff] at authority depth fresh signed
    obtain ⟨fresh₁, fresh₂⟩ := of_eitherExpired_eq_ok (fresh ▸ read)
    refine ⟨subject, issuer, first, second, fun inner => ?_, ?_, fresh₁, fresh₂, ?_⟩
    · simpa [inner] using authority
    · simpa [Option.any_eq_false] using depth
    · simpa using signed
  · cases ok

theorem of_verifyChain_eq_ok (ok : verifyChain verifiers now chain hostname store = .ok ()) :
    ∃ leaf last, chain.head? = some leaf ∧ chain.getLast? = some last ∧
      leaf.matchesHostname hostname ∧
      (∀ i < chain.length - 1, checkLink verifiers now chain i = .ok ()) ∧
      ∃ anchor, store.findAnchor last.issuer = some anchor ∧
        verifyCertSignature verifiers last anchor.publicKey := by
  unfold verifyChain at ok
  split at ok
  · rename_i leaf last first final
    obtain ⟨_, host, ok⟩ := except_bind_eq_ok_iff.mp ok
    obtain ⟨_, links, anchored⟩ := except_bind_eq_ok_iff.mp ok
    rw [failIf_eq_ok_iff] at host
    refine ⟨leaf, last, first, final, by simpa using host, fun i inside => ?_, ?_⟩
    · exact forM_eq_ok_iff.mp links i (mem_range.mpr inside)
    unfold checkAnchor at anchored
    split at anchored
    · rename_i anchor found
      rw [failIf_eq_ok_iff] at anchored
      exact ⟨anchor, found, by simpa using anchored⟩
    · cases anchored
  · cases ok

/-! ## Soundness -/

/-- Times in the order of their fields. -/
def Time.key (t : Time) : ℕ ×ₗ ℕ ×ₗ ℕ ×ₗ ℕ ×ₗ ℕ ×ₗ ℕ :=
  toLex (t.year, toLex (t.month, toLex (t.day, toLex (t.hour, toLex (t.minute, t.second)))))

theorem isBefore_iff {a b : Time} : isBefore a b ↔ a.key < b.key := by
  simp only [isBefore, Time.key, Prod.Lex.toLex_lt_toLex]
  split_ifs <;> simp only [decide_eq_true_eq] <;> omega

namespace Certificate

/-- Both ends of the validity period can be read. -/
def Readable (cert : Certificate) : Prop :=
  ∃ notBefore notAfter, parseCertTime cert.notBefore = (.ok (some notBefore) : Verify _) ∧
    parseCertTime cert.notAfter = (.ok (some notAfter) : Verify _)

def ValidAt (cert : Certificate) (now : Time) : Prop :=
  ∃ notBefore notAfter, parseCertTime cert.notBefore = (.ok (some notBefore) : Verify _) ∧
    parseCertTime cert.notAfter = (.ok (some notAfter) : Verify _) ∧
    notBefore.key ≤ now.key ∧ now.key ≤ notAfter.key

theorem validAt_iff :
    cert.ValidAt now ↔ cert.Readable ∧ cert.isExpired now = (.ok false : Verify Bool) := by
  have inside {notBefore notAfter : Time}
      (start : parseCertTime cert.notBefore = (.ok (some notBefore) : Verify _))
      (stop : parseCertTime cert.notAfter = (.ok (some notAfter) : Verify _)) :
      cert.isExpired now = (.ok false : Verify Bool) ↔
        notBefore.key ≤ now.key ∧ now.key ≤ notAfter.key := by
    rw [← not_lt, ← not_lt, ← isBefore_iff, ← isBefore_iff, isExpired, start, stop]
    cases early : isBefore now notBefore <;> cases late : isBefore notAfter now <;>
      simp [bind, Except.bind, pure, Except.pure, early, late]
  constructor
  · rintro ⟨notBefore, notAfter, start, stop, within⟩
    exact ⟨⟨notBefore, notAfter, start, stop⟩, (inside start stop).mpr within⟩
  · rintro ⟨⟨notBefore, notAfter, start, stop⟩, fresh⟩
    exact ⟨notBefore, notAfter, start, stop, (inside start stop).mp fresh⟩

end Certificate

/-- The certificate at index `i` was issued by the next one. -/
structure Issued (verifiers : Verifiers) (i : ℕ) (subject issuer : Certificate) : Prop where
  authority : issuer.isCa
  name : issuer.subject = subject.issuer
  depth : ∀ max ∈ issuer.pathLen, i ≤ max.toNat
  signed : verifyCertSignature verifiers subject issuer.publicKey

/-- The store vouches for the certificate: one of its anchors signed it, or is it. -/
def Anchored (verifiers : Verifiers) (store : CaStore) (cert : Certificate) : Prop :=
  ∃ anchor ∈ store.anchors,
    subjectsMatch anchor.subject cert.issuer ∧
        verifyCertSignature verifiers cert anchor.publicKey ∨
      anchor.subject = cert.subject ∧ anchor.publicKey = cert.publicKey

/-- What an accepted chain is meant to guarantee. -/
structure Sound (verifiers : Verifiers) (now : Time) (chain : List Certificate)
    (hostname : String) (store : CaStore) : Prop where
  leaf : ∃ leaf, chain.head? = some leaf ∧ leaf.matchesHostname hostname
  valid : ∀ cert ∈ chain, cert.ValidAt now
  linked : ∀ i subject issuer, chain[i]? = some subject → chain[i + 1]? = some issuer →
    Issued verifiers i subject issuer
  anchored : ∃ last, chain.getLast? = some last ∧ Anchored verifiers store last

/-- What `verify_chain` takes for granted: names are chained, the last of several certificates
is an authority, a lone certificate has not expired, and all times can be read. -/
structure Presumed (now : Time) (chain : List Certificate) : Prop where
  names : ∀ i subject issuer, chain[i]? = some subject → chain[i + 1]? = some issuer →
    issuer.subject = subject.issuer
  authority : ∀ last, 2 ≤ chain.length → chain.getLast? = some last → last.isCa
  alone : ∀ leaf, chain = [leaf] → leaf.isExpired now = (.ok false : Verify Bool)
  readable : ∀ cert ∈ chain, cert.Readable

/-- Every certificate of an accepted chain of at least two was found not to be expired. -/
theorem isExpired_of_links (several : 2 ≤ chain.length)
    (links : ∀ i < chain.length - 1, checkLink verifiers now chain i = .ok ())
    (mem : cert ∈ chain) : cert.isExpired now = (.ok false : Verify Bool) := by
  obtain ⟨i, there⟩ := mem_iff_getElem?.mp mem
  obtain ⟨inside, -⟩ := List.getElem?_eq_some_iff.mp there
  -- the last certificate is the issuer of a link, every other one the subject of a link
  by_cases last : i = chain.length - 1
  · obtain ⟨subject, issuer, -, second, -, -, -, fresh, -⟩ :=
      of_checkLink_eq_ok (links (i - 1) (by omega))
    rw [(by omega : i - 1 + 1 = i)] at second
    cases there.symm.trans second
    exact fresh
  · obtain ⟨subject, issuer, first, -, -, -, fresh, -⟩ :=
      of_checkLink_eq_ok (links i (by omega))
    cases there.symm.trans first
    exact fresh

/-- A chain that is accepted is sound exactly when what the function presumes is true. -/
theorem sound_iff_presumed (accepted : verifyChain verifiers now chain hostname store = .ok ()) :
    Sound verifiers now chain hostname store ↔ Presumed now chain := by
  obtain ⟨leaf, last, first, final, host, links, anchor, found, signed⟩ :=
    of_verifyChain_eq_ok accepted
  constructor
  · intro sound
    refine ⟨fun i subject issuer here next => (sound.linked i subject issuer here next).name,
      fun last' several final' => ?_, fun lone whole => ?_, fun cert mem => ?_⟩
    · rw [getLast?_eq_getElem?] at final'
      have before : chain.length - 2 < chain.length := by omega
      have issued := sound.linked (chain.length - 2) _ last'
        (getElem?_eq_getElem before) (by rwa [(by omega : chain.length - 2 + 1 = chain.length - 1)])
      exact issued.authority
    · have valid := sound.valid lone (by rw [whole]; exact mem_singleton_self lone)
      exact (validAt_iff.mp valid).2
    · exact (validAt_iff.mp (sound.valid cert mem)).1
  · intro presumed
    refine ⟨⟨leaf, first, host⟩, fun cert mem => ?_, fun i subject issuer here next => ?_,
      last, final, anchor, ?_, .inl ⟨?_, signed⟩⟩
    · refine validAt_iff.mpr ⟨presumed.readable cert mem, ?_⟩
      by_cases several : 2 ≤ chain.length
      · exact isExpired_of_links several links mem
      obtain ⟨lone, whole⟩ : ∃ lone, chain = [lone] := length_eq_one_iff.mp (by
        have := length_pos_of_mem mem
        omega)
      rw [whole, mem_singleton] at mem
      rw [mem]
      exact presumed.alone lone whole
    · obtain ⟨inside, -⟩ := List.getElem?_eq_some_iff.mp next
      obtain ⟨subject', issuer', here', next', inner, depth, -, -, signed'⟩ :=
        of_checkLink_eq_ok (links i (by omega))
      cases here.symm.trans here'
      cases next.symm.trans next'
      refine ⟨?_, presumed.names i subject issuer here next, depth, signed'⟩
      by_cases between : i + 1 < chain.length - 1
      · exact inner between
      · apply presumed.authority issuer (by omega)
        rwa [getLast?_eq_getElem?, (by omega : chain.length - 1 = i + 1)]
    · exact mem_of_find?_eq_some found
    · have named := find?_some found
      exact named

/-- Certificates that are valid from 2020 to 2029, for the two chains below. -/
def sampleCertificate (issuer subject : Name) (isCa : Bool) : Certificate where
  tbsRaw := []
  serial := [1]
  issuer := issuer
  subject := subject
  notBefore := "200101000000Z"
  notAfter := "300101000000Z"
  publicKey := .ec p256Oid []
  isCa := isCa
  pathLen := none
  san := ["a.b"]
  sigAlg := ""
  signature := [0x30, 0x06, 0x02, 0x01, 0x01, 0x02, 0x01, 0x01]

def sampleVerifiers : Verifiers := ⟨fun _ _ _ _ => true, fun _ _ _ _ => true⟩

def sampleNow : Time := ⟨2025, 1, 1, 0, 0, 0⟩

def sampleStore : CaStore := ⟨[⟨[(commonNameOid, "root")], .ec p256Oid []⟩]⟩

/-- A leaf, an intermediate authority that issued it, and a root that issued the authority. -/
theorem sound_of_two : Sound sampleVerifiers sampleNow
      [sampleCertificate [(commonNameOid, "ca")] [] false,
        sampleCertificate [(commonNameOid, "root")] [(commonNameOid, "ca")] true]
      "a.b" sampleStore := by
  refine (sound_iff_presumed (by decide +kernel)).mpr ⟨?_, ?_, ?_, ?_⟩
  · intro i subject issuer first second
    match i with
    | 0 =>
      cases first
      cases second
      rfl
    | i + 1 => simp at second
  · intro last _ final
    cases final
    rfl
  · intro leaf whole
    cases whole
  · intro cert mem
    have times : parseCertTime "200101000000Z" = (.ok (some ⟨2020, 1, 1, 0, 0, 0⟩) : Verify _) ∧
        parseCertTime "300101000000Z" = (.ok (some ⟨2030, 1, 1, 0, 0, 0⟩) : Verify _) := by
      decide +kernel
    simp only [mem_cons, not_mem_nil, or_false] at mem
    rcases mem with rfl | rfl <;> exact ⟨_, _, times⟩

/-- The holder of any certificate below a root can issue certificates for other hosts: the
last certificate of the chain need not be an authority, nor be named as the issuer. -/
theorem accepted_not_sound : ¬ ∀ (verifiers : Verifiers) (now : Time) (chain : List Certificate)
    (hostname : String) (store : CaStore), verifyChain verifiers now chain hostname store = .ok () →
      Sound verifiers now chain hostname store := by
  intro claimed
  have sound := claimed sampleVerifiers sampleNow
    [sampleCertificate [(commonNameOid, "ca")] [] false,
      sampleCertificate [(commonNameOid, "root")] [(commonNameOid, "mallory")] false]
    "a.b" sampleStore (by decide +kernel)
  cases (sound.linked 0 _ _ rfl rfl).authority

end SmartOs.Crypto
