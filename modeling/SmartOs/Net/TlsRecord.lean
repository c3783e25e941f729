/-
# Records of TLS 1.3

What the two record openers of `net/tls.rs` make of an inner plaintext: content, its type and
zeros. The AEAD is a parameter. The opener for AES takes the last byte for the type. The one for
ChaCha20 looks for the last byte that is not zero, and accepts zeros only as content.

A session seals each record under the number of the record, which `send` counts.
-/

import SmartOs.Math.BigEndian
import SmartOs.Math.LittleEndian

namespace SmartOs.Net.Tls

open Math List

/-- An AEAD with its key. A tag of 16 bytes is added, and what is sealed can be opened. -/
structure Aead where
  encrypt : (nonce aad plain : List UInt8) → List UInt8
  decrypt : (nonce aad sealed : List UInt8) → Except String (List UInt8)
  length_encrypt : ∀ nonce aad plain, (encrypt nonce aad plain).length = plain.length + 16
  decrypt_encrypt : ∀ nonce aad plain, decrypt nonce aad (encrypt nonce aad plain) = .ok plain

/-- The type of records that are sealed, and of application data in them. -/
def recApplicationData : UInt8 := 0x17

/-- The number of a record, in the last eight bytes of the initialisation vector. -/
def makeNonce (baseIv : Bytes 12) (seq : UInt64) : List UInt8 :=
  baseIv.val.take 4 ++ zipWith (· ^^^ ·) (baseIv.val.drop 4) (beBytesOn 8 seq.toNat)

/-- The header of a sealed record. -/
def recordHeader (length : ℕ) : List UInt8 :=
  [recApplicationData, 0x03, 0x03, UInt8.ofNat (length >>> 8), UInt8.ofNat length]

/-- The record for an inner plaintext; `aead_seal` makes those without zeros. -/
def sealRecord (aead : Aead) (iv : Bytes 12) (seq : UInt64) (inner : List UInt8) : List UInt8 :=
  aead.encrypt (makeNonce iv seq) (recordHeader (inner.length + 16)) inner

/-- A record with content of a type, without padding. -/
def aeadSeal (aead : Aead) (iv : Bytes 12) (seq : UInt64) (contentType : UInt8)
    (plain : List UInt8) : List UInt8 :=
  sealRecord aead iv seq (plain ++ [contentType])

/-- The opener for AES: content and type. -/
def aeadOpen (aead : Aead) (iv : Bytes 12) (seq : UInt64) (enc : List UInt8) :
    Except String (List UInt8 × UInt8) := do
  let inner ← aead.decrypt (makeNonce iv seq) (recordHeader enc.length) enc
  match inner.getLast? with
  | none => .error "empty inner plaintext"
  | some contentType => .ok (inner.dropLast, contentType)

/-- The opener for ChaCha20. -/
def chacha20poly1305OpenRecord (aead : Aead) (iv : Bytes 12) (seq : UInt64) (data : List UInt8) :
    Except String (List UInt8 × UInt8) := do
  if data.length < 17 then .error "ChaCha20-Poly1305: ciphertext too short"
  else
    let plaintext ← aead.decrypt (makeNonce iv seq) (recordHeader data.length) data
    let innerCt := (plaintext.reverse.find? (· ≠ 0)).getD recApplicationData
    let stripLen := (plaintext.reverse.findIdx? (· ≠ 0)).getD 0 + 1
    .ok (plaintext.take (plaintext.length - stripLen), innerCt)

/-- The opener returns content and type of an inner plaintext, and rejects one of zeros. -/
def Unwraps (result : Except String (List UInt8 × UInt8)) (inner : List UInt8) : Prop :=
  (∀ content contentType pad, contentType ≠ 0 →
    inner = content ++ contentType :: replicate pad 0 → result = .ok (content, contentType)) ∧
  ((∀ b ∈ inner, b = 0) → ∃ e, result = .error e)

variable (inner : List UInt8)

/-- An inner plaintext is zeros, or content and a type before zeros. -/
theorem zeros_or_typed : (∀ b ∈ inner, b = 0) ∨
    ∃ content contentType pad, contentType ≠ 0 ∧
      inner = content ++ contentType :: replicate pad 0 := by
  induction inner using reverseRecOn with
  | nil => exact .inl nofun
  | append_singleton front b ih =>
    by_cases zero : b = 0
    · subst zero
      rcases ih with zeros | ⟨content, contentType, pad, typed, rfl⟩
      · exact .inl (forall_mem_append.mpr ⟨zeros, forall_mem_singleton.mpr rfl⟩)
      · refine .inr ⟨content, contentType, pad + 1, typed, ?_⟩
        rw [append_assoc, cons_append, ← replicate_succ']
    · exact .inr ⟨front, b, 0, zero, rfl⟩

variable (aead : Aead) (iv : Bytes 12) (seq : UInt64)

theorem aeadOpen_sealRecord :
    aeadOpen aead iv seq (sealRecord aead iv seq inner) = match inner.getLast? with
      | none => .error "empty inner plaintext"
      | some contentType => .ok (inner.dropLast, contentType) := by
  rw [aeadOpen, sealRecord, aead.length_encrypt, aead.decrypt_encrypt]
  rfl

theorem openRecord_sealRecord {inner : List UInt8} (some : inner ≠ []) :
    chacha20poly1305OpenRecord aead iv seq (sealRecord aead iv seq inner) =
      .ok (inner.take (inner.length - ((inner.reverse.findIdx? (· ≠ 0)).getD 0 + 1)),
        (inner.reverse.find? (· ≠ 0)).getD recApplicationData) := by
  have := length_pos_iff.mpr some
  rw [chacha20poly1305OpenRecord, sealRecord, aead.length_encrypt, if_neg (by omega),
    aead.decrypt_encrypt]
  rfl

/-- The opener for ChaCha20 finds the type behind any number of zeros. Zeros only are rejected if
there are none. -/
theorem unwraps_openRecord_iff :
    Unwraps (chacha20poly1305OpenRecord aead iv seq (sealRecord aead iv seq inner)) inner ↔
      inner = [] ∨ ∃ b ∈ inner, b ≠ 0 := by
  constructor
  · intro unwraps
    by_contra zeros
    simp only [not_or, not_exists, not_and, not_not] at zeros
    obtain ⟨e, failed⟩ := unwraps.2 zeros.2
    rw [openRecord_sealRecord aead iv seq zeros.1] at failed
    exact nomatch failed
  · intro shape
    refine ⟨?_, fun zeros => ?_⟩
    · rintro content contentType pad typed rfl
      rw [openRecord_sealRecord aead iv seq (by simp)]
      simp [findIdx?_append, findIdx?_cons, typed]
    · obtain rfl | ⟨b, mem, ne⟩ := shape
      · rw [chacha20poly1305OpenRecord, sealRecord, aead.length_encrypt]
        exact ⟨_, rfl⟩
      · exact absurd (zeros b mem) ne

/-- Both openers, each with its own AEAD, unwrap a record exactly if its inner plaintext does not
end in a zero. -/
theorem unwraps_iff (aes chacha : Aead) (inner : List UInt8) :
    Unwraps (aeadOpen aes iv seq (sealRecord aes iv seq inner)) inner ∧
      Unwraps (chacha20poly1305OpenRecord chacha iv seq (sealRecord chacha iv seq inner)) inner ↔
    inner.getLast? ≠ some 0 := by
  rw [aeadOpen_sealRecord, unwraps_openRecord_iff]
  constructor
  · rintro ⟨⟨returns, rejects⟩, -⟩ last
    rw [last] at returns rejects
    rcases zeros_or_typed inner with zeros | ⟨content, contentType, pad, typed, shape⟩
    · obtain ⟨e, failed⟩ := rejects zeros
      exact nomatch failed
    · have same := returns content contentType pad typed shape
      simp only [Except.ok.injEq, Prod.mk.injEq] at same
      exact typed same.2.symm
  · intro last
    have mem (b : UInt8) (ends : inner.getLast? = some b) : b ∈ inner ∧ b ≠ 0 :=
      ⟨mem_of_getLast? ends, fun zero => last (zero ▸ ends)⟩
    refine ⟨⟨?_, fun zeros => ?_⟩, ?_⟩
    · rintro content contentType pad typed rfl
      cases pad with
      | zero => simp
      | succ pad =>
        rw [replicate_succ', ← cons_append, ← append_assoc, getLast?_concat] at last
        exact absurd rfl last
    · cases ends : inner.getLast? with
      | none => exact ⟨_, rfl⟩
      | some b => exact absurd (zeros b (mem b ends).1) (mem b ends).2
    · cases ends : inner.getLast? with
      | none => exact .inl (getLast?_eq_none_iff.mp ends)
      | some b => exact .inr ⟨b, mem b ends⟩

/-- An AEAD that hides nothing, with the nonce for a tag. -/
def plainAead : Aead where
  encrypt nonce _ plain := plain ++ (nonce ++ replicate 16 0).take 16
  decrypt _ _ sealed := .ok (sealed.take (sealed.length - 16))
  length_encrypt _ _ plain := by simp
  decrypt_encrypt _ _ := by simp

/-- The opener for AES takes the padding of an alert for its type. -/
theorem not_unwraps_padded : ¬ Unwraps (aeadOpen plainAead ⟨replicate 12 0, rfl⟩ 0
    (sealRecord plainAead ⟨replicate 12 0, rfl⟩ 0 [1, 0, 21, 0])) [1, 0, 21, 0] := by
  intro unwraps
  have opened := unwraps.1 [1, 0] 21 1 (by decide) rfl
  rw [aeadOpen_sealRecord] at opened
  exact absurd opened (by simp)

/-! ## Sending -/

theorem zipWith_xor_inj {mask xs ys : List UInt8} (hx : xs.length = mask.length)
    (hy : ys.length = mask.length) (same : zipWith (· ^^^ ·) mask xs = zipWith (· ^^^ ·) mask ys) :
    xs = ys := by
  induction mask generalizing xs ys with
  | nil => rw [length_eq_zero_iff.mp hx, length_eq_zero_iff.mp hy]
  | cons m mask ih =>
    obtain ⟨x, xs, rfl⟩ := exists_cons_of_length_eq_add_one hx
    obtain ⟨y, ys, rfl⟩ := exists_cons_of_length_eq_add_one hy
    obtain ⟨head, tail⟩ := cons.inj same
    rw [(UInt8.xor_right_inj m).mp head, ih (Nat.succ.inj hx) (Nat.succ.inj hy) tail]

/-- Different numbers give different nonces. -/
theorem makeNonce_injective : Function.Injective (makeNonce iv) := by
  intro a b same
  have bytes := zipWith_xor_inj (by simp [iv.property]) (by simp [iv.property])
    (append_cancel_left same)
  apply UInt64.toNat_inj.mp
  rw [← ofBeBytes_beBytesOn (show _ < 256 ^ 8 from a.toNat_lt), bytes,
    ofBeBytes_beBytesOn b.toNat_lt]

/-- The cipher suite with ChaCha20-Poly1305. -/
def cipherChacha20Poly1305 : UInt16 := 0x1303

/-- What `send` reads of a session. The two AEADs have the keys of the client. -/
structure Session where
  aes : Aead
  chacha : Aead
  appClientIv : Bytes 12
  cipher : UInt16
  sendSeq : UInt64

namespace Session

/-- The record that is handed to TCP, and the session after it. `aead_seal_chacha` does what
`aead_seal` does with another AEAD. -/
def send (s : Session) (data : List UInt8) : List UInt8 × Session :=
  let enc :=
    if s.cipher = cipherChacha20Poly1305 then
      aeadSeal s.chacha s.appClientIv s.sendSeq recApplicationData data
    else aeadSeal s.aes s.appClientIv s.sendSeq recApplicationData data
  (recordHeader enc.length ++ enc, { s with sendSeq := s.sendSeq + 1 })

/-- The records of a run of sends. -/
def sendAll (s : Session) : List (List UInt8) → List (List UInt8)
  | [] => []
  | data :: datas => (s.send data).1 :: (s.send data).2.sendAll datas

/-- The record for the data, sealed under a given nonce. -/
def recordUnder (s : Session) (nonce data : List UInt8) : List UInt8 :=
  let aead := if s.cipher = cipherChacha20Poly1305 then s.chacha else s.aes
  let header := recordHeader (data.length + 17)
  header ++ aead.encrypt nonce header (data ++ [recApplicationData])

/-- A record is sealed under the nonce of the counter. -/
theorem send_fst (s : Session) (data : List UInt8) :
    (s.send data).1 = s.recordUnder (makeNonce s.appClientIv s.sendSeq) data := by
  have inner : (data ++ [recApplicationData]).length + 16 = data.length + 17 := by simp
  simp only [send, recordUnder, aeadSeal, sealRecord, inner]
  split_ifs <;> rw [Aead.length_encrypt, inner]

/-- The nonces of a run of sends, from the counter on. -/
def nonces (iv : Bytes 12) (seq : UInt64) (count : ℕ) : List (List UInt8) :=
  (range count).map fun i => makeNonce iv (seq + UInt64.ofNat i)

theorem nonces_succ (iv : Bytes 12) (seq : UInt64) (count : ℕ) :
    nonces iv seq (count + 1) = makeNonce iv seq :: nonces iv (seq + 1) count := by
  have later (i : ℕ) : seq + UInt64.ofNat (i + 1) = seq + 1 + UInt64.ofNat i := by
    rw [UInt64.ofNat_add, UInt64.add_assoc, UInt64.add_comm 1]
    rfl
  rw [nonces, range_succ_eq_map, map_cons, map_map, nonces]
  exact congrArg₂ cons (by simp) (map_congr_left fun i _ => congrArg (makeNonce iv) (later i))

/-- A run of sends seals record by record, the counter going up by one. -/
theorem sendAll_eq (s : Session) (datas : List (List UInt8)) : s.sendAll datas =
      zipWith s.recordUnder (nonces s.appClientIv s.sendSeq datas.length) datas := by
  induction datas generalizing s with
  | nil => rfl
  | cons data datas ih =>
    rw [sendAll, ih, send_fst, length_cons, nonces_succ, zipWith_cons_cons]
    rfl

theorem nodup_nonces (iv : Bytes 12) (count : ℕ) : (nonces iv 0 count).Nodup ↔ count ≤ 2 ^ 64 := by
  rw [nonces, nodup_map_iff_inj_on nodup_range]
  constructor
  · intro inj
    by_contra more
    have wraps : UInt64.ofNat 0 = UInt64.ofNat (2 ^ 64) := by decide
    exact absurd (inj 0 (mem_range.mpr (by omega)) (2 ^ 64) (mem_range.mpr (by omega))
      (congrArg _ (congrArg _ wraps))) (by decide)
  · intro fits i hi j hj same
    rw [mem_range] at hi hj
    have words := congrArg UInt64.toNat ((UInt64.add_right_inj 0).mp (makeNonce_injective iv same))
    rwa [UInt64.toNat_ofNat_of_lt' (hi.trans_le fits),
      UInt64.toNat_ofNat_of_lt' (hj.trans_le fits)] at words

/-- For every initialisation vector and number of sends there are nonces under which any session
seals its records, whatever it sends and whatever its AEADs are. No nonce is used twice in `2 ^ 64`
sends, and one is in any more. -/
theorem sendAll_nonces (iv : Bytes 12) (count : ℕ) : ∃ nonces : List (List UInt8),
    nonces.length = count ∧ (nonces.Nodup ↔ count ≤ 2 ^ 64) ∧
      ∀ (s : Session) (datas : List (List UInt8)), s.appClientIv = iv → s.sendSeq = 0 →
        datas.length = count → s.sendAll datas = zipWith s.recordUnder nonces datas := by
  refine ⟨nonces iv 0 count, by simp [nonces], nodup_nonces iv count, ?_⟩
  rintro s datas rfl start rfl
  rw [sendAll_eq, start]

/-- Two sends under ChaCha20. -/
theorem sendAll_nonces_two : ∃ first second, first ≠ second ∧
    (⟨plainAead, plainAead, ⟨replicate 12 7, rfl⟩, 0x1303, 0⟩ : Session).sendAll [[71], [69, 84]] =
      [[23, 3, 3, 0, 18] ++ plainAead.encrypt first [23, 3, 3, 0, 18] [71, 23],
        [23, 3, 3, 0, 19] ++ plainAead.encrypt second [23, 3, 3, 0, 19] [69, 84, 23]] := by
  obtain ⟨nonces, length, nodup, sent⟩ := sendAll_nonces ⟨replicate 12 7, rfl⟩ 2
  obtain ⟨first, second, rfl⟩ := length_eq_two.mp length
  refine ⟨first, second, ?_, (sent _ _ rfl rfl rfl).trans rfl⟩
  have := nodup.mpr (by decide)
  simpa using this

end Session

end SmartOs.Net.Tls
