/-
# Round trip of QPACK

The fields of a header frame are written as entries of the static table, with a name from that
table or with both strings, and the decoder of `net/quic.rs` reads each of them back.
-/

import SmartOs.Net.PrefixIntegers

namespace SmartOs.Net.Quic

open Hpack List SmartPack

def qpackEncodeStr (s : String) : List UInt8 :=
  qpackEncodeInt 0x00 7 (strBytes s).length ++ strBytes s

def qpackEncodeHeader (header : Header) : List UInt8 :=
  match qpackStatic.findIdx? (· = header) with
  | some idx => qpackEncodeInt 0xC0 6 idx
  | none =>
    match qpackStatic.findIdx? (·.1 = header.1) with
    | some idx => qpackEncodeInt 0x50 4 idx ++ qpackEncodeStr header.2
    | none => 0x28 :: (qpackEncodeStr header.1 ++ qpackEncodeStr header.2)

def h3Frame (ftype : ℕ) (payload : List UInt8) : List UInt8 :=
  encodeVarint ftype ++ encodeVarint payload.length ++ payload

def h3FrameHeaders : ℕ := 0x01

/-- The insert count and the base are zero. -/
def headersPayload (headers : List Header) : List UInt8 :=
  0x00 :: 0x00 :: headers.flatMap qpackEncodeHeader

def h3HeadersFrame (headers : List Header) : List UInt8 :=
  h3Frame h3FrameHeaders (headersPayload headers)

variable {pattern : UInt8} {n v : ℕ} (width : n ≤ 8) (clear : pattern.toNat % 2 ^ n = 0)
  (fits : v < 2 ^ 64)
include width clear fits

theorem qpackDecodeInt_encodeInt (rest : List UInt8) :
    qpackDecodeInt n (qpackEncodeInt pattern n v ++ rest) = some (v, rest) := by
  rw [qpackDecodeInt, qpackEncodeInt, (decodeInteger_encodeInteger width clear fits rest).1]

theorem qpackEncodeInt_cons : ∃ k < 2 ^ n, ∃ tail,
    qpackEncodeInt pattern n v = (pattern ||| .ofNat k) :: tail ∧
      ∀ rest, qpackDecodeInt n ((pattern ||| .ofNat k) :: (tail ++ rest)) = some (v, rest) := by
  have decoded := qpackDecodeInt_encodeInt width clear fits
  have positive := Nat.two_pow_pos n
  simp only [qpackEncodeInt, encodeInteger] at decoded ⊢
  split_ifs at decoded ⊢ with short
  · exact ⟨v, by omega, _, rfl, decoded⟩
  · exact ⟨2 ^ n - 1, by omega, _, rfl, decoded⟩

omit width clear fits

section

variable {lossy : List UInt8 → String} (text : ∀ s, lossy (strBytes s) = s) {total : ℕ}
  (memory : total < 2 ^ 62)
include text memory

theorem qpackDecodeStr_encodeStr (s : String) (rest : List UInt8)
    (inside : (qpackEncodeStr s ++ rest).length ≤ total) :
    qpackDecodeStr lossy total (qpackEncodeStr s ++ rest) = some (some (s, rest)) := by
  rw [qpackEncodeStr, append_assoc] at inside ⊢
  simp only [length_append] at inside
  rw [qpackDecodeStr, qpackDecodeInt_encodeInt (by decide) (by decide) (by omega)]
  simp only [length_append]
  rw [if_neg (by omega), if_neg (by omega), take_left, drop_left, text]

/-- Each of the three forms is told from the others by its first byte. -/
theorem qpackField_encodeHeader {header : Header} {rest : List UInt8}
    (inside : (qpackEncodeHeader header ++ rest).length ≤ total) :
    ∃ b tail, qpackEncodeHeader header = b :: tail ∧
      qpackField lossy total b (tail ++ rest) = some (some ([header], rest)) := by
  have size : qpackStatic.length < 2 ^ 64 := by decide
  have value := qpackDecodeStr_encodeStr text memory header.2 rest
  unfold qpackEncodeHeader at inside ⊢
  cases entry : qpackStatic.findIdx? (· = header) with
  | some idx =>
    obtain ⟨known, same, -⟩ := findIdx?_eq_some_iff_getElem.mp entry
    obtain ⟨k, small, tail, first, decoded⟩ := @qpackEncodeInt_cons 0xC0 6 idx (by decide)
      (by decide) (known.trans size)
    have bits : ∀ k < 2 ^ 6, (0xC0 ||| UInt8.ofNat k) &&& 0x80 ≠ 0 ∧
        (0xC0 ||| UInt8.ofNat k) &&& 0x40 ≠ 0 := by decide +kernel
    refine ⟨_, tail, first, ?_⟩
    rw [qpackField, if_pos (bits k small).1, decoded]
    simp [(bits k small).2, getElem?_eq_getElem known, of_decide_eq_true same]
  | none =>
    rw [entry] at inside
    cases name : qpackStatic.findIdx? (·.1 = header.1) with
    | some idx =>
      obtain ⟨known, same, -⟩ := findIdx?_eq_some_iff_getElem.mp name
      obtain ⟨k, small, tail, first, decoded⟩ := @qpackEncodeInt_cons 0x50 4 idx (by decide)
        (by decide) (known.trans size)
      have bits : ∀ k < 2 ^ 4, (0x50 ||| UInt8.ofNat k) &&& 0x80 = 0 ∧
          (0x50 ||| UInt8.ofNat k) &&& 0xC0 = 0x40 := by decide +kernel
      simp only [name, append_assoc] at inside ⊢
      rw [length_append] at inside
      rw [first, cons_append]
      refine ⟨_, _, rfl, ?_⟩
      rw [append_assoc, qpackField, if_neg (not_not.mpr (bits k small).1), if_pos (bits k small).2,
        decoded]
      simp [value (by omega), getElem?_eq_getElem known, of_decide_eq_true same]
    | none =>
      simp only [name, cons_append, append_assoc, length_cons] at inside ⊢
      refine ⟨_, _, rfl, ?_⟩
      rw [append_assoc, qpackField, if_neg (by decide), if_neg (by decide), if_pos (by decide),
        qpackDecodeStr_encodeStr text memory header.1 _ (by omega)]
      rw [length_append] at inside
      simp [value (by omega)]

theorem qpackFields_encode {headers : List Header} {fuel : ℕ}
    (inside : (headers.flatMap qpackEncodeHeader).length ≤ total)
    (enough : (headers.flatMap qpackEncodeHeader).length ≤ fuel) :
    qpackFields lossy total fuel (headers.flatMap qpackEncodeHeader) = some headers := by
  induction headers generalizing fuel with
  | nil => cases fuel <;> rfl
  | cons header headers ih =>
    rw [flatMap_cons] at inside enough ⊢
    obtain ⟨b, tail, first, field⟩ := qpackField_encodeHeader text memory inside
    rw [length_append, first, length_cons] at inside enough
    cases fuel with
    | zero => omega
    | succ fuel =>
      rw [first, cons_append, qpackFields, field]
      simp [@ih fuel (by omega) (by omega)]

end

/-- All fields are read back from the payload of the frame, and so are its type and length. -/
theorem qpack_roundTrip (lossy : List UInt8 → String) (text : ∀ s, lossy (strBytes s) = s)
    (headers : List Header) (memory : (headersPayload headers).length < 2 ^ 62) :
    qpackDecode lossy (headersPayload headers) = some headers ∧
      ∃ rest, decodeVarint (h3HeadersFrame headers) = some (h3FrameHeaders, rest) ∧
        decodeVarint rest = some ((headersPayload headers).length, headersPayload headers) := by
  constructor
  · exact qpackFields_encode text memory (Nat.le_add_right _ 2) (Nat.le_add_right _ 2)
  obtain ⟨ftype, kind, first⟩ := @encodeVarint_eq h3FrameHeaders (by decide)
  obtain ⟨length, value, second⟩ := encodeVarint_eq memory
  rw [h3HeadersFrame, h3Frame, first, second, append_assoc, decodeVarint_encode, kind]
  exact ⟨_, rfl, by rw [decodeVarint_encode, value]⟩

/-- A conversion that keeps text. -/
def lossless (bytes : List UInt8) : String := (fromUtf8 bytes).getD ""

/-- A request with fields of all three forms. -/
theorem qpack_roundTrip_request : qpackDecode lossless (headersPayload
      [(":method", "GET"), (":path", "/smart"), ("x-os", "")]) =
      some [(":method", "GET"), (":path", "/smart"), ("x-os", "")] := by
  refine (qpack_roundTrip lossless (fun s => ?_) _ (by decide +kernel)).1
  rw [lossless, fromUtf8_strBytes, Option.getD_some]

end SmartOs.Net.Quic
