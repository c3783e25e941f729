/-
# The integers of HTTP/2 and HTTP/3

Prefix integers and the variable-length integers of QUIC are read back as they were written, from
any position and with any bytes behind them. The decoders add up groups of seven bits in 64 bits,
and no sum overflows for an integer that an encoder wrote.
-/

import SmartOs.Net.HpackRoundTrip
import SmartOs.Net.Http3

open SmartOs.Math SmartOs.Net.Hpack

namespace SmartOs.Net.Quic

/-- It is the encoder of HPACK. -/
def qpackEncodeInt (pattern : UInt8) (n v : ℕ) : List UInt8 := encodeInteger pattern n v

def encodeVarint (v : ℕ) : List UInt8 :=
  if v < 2 ^ 6 then [.ofNat v]
  else if v < 2 ^ 14 then [0x40 ||| .ofNat (v >>> 8), .ofNat v]
  else if v < 2 ^ 30 then
    [0x80 ||| .ofNat (v >>> 24), .ofNat (v >>> 16), .ofNat (v >>> 8), .ofNat v]
  else
    [0xC0 ||| .ofNat (v >>> 56), .ofNat (v >>> 48), .ofNat (v >>> 40), .ofNat (v >>> 32),
      .ofNat (v >>> 24), .ofNat (v >>> 16), .ofNat (v >>> 8), .ofNat v]

theorem sizeBits_or {size top : ℕ} (fits : size < 4) (low : top < 64) :
    UInt8.ofNat (64 * size) ||| .ofNat top = .ofNat (64 * size + top) := by
  have all : ∀ size < 4, ∀ top < 64,
      UInt8.ofNat (64 * size) ||| .ofNat top = .ofNat (64 * size + top) := by decide +kernel
  exact all size fits top low

/-- The encoder takes the smallest of the four sizes. -/
theorem encodeVarint_eq {v : ℕ} (small : v < 2 ^ 62) :
    ∃ w : Varint, w.value = v ∧ encodeVarint v = w.encode := by
  have first {k size : ℕ} (fits : size < 4) (low : v < 64 * 2 ^ k) :
      UInt8.ofNat (64 * size) ||| .ofNat (v >>> k) = .ofNat (64 * size + v / 2 ^ k) := by
    rw [Nat.shiftRight_eq_div_pow, sizeBits_or fits (Nat.div_lt_of_lt_mul (by rwa [mul_comm]))]
  unfold encodeVarint
  split_ifs with one two four
  · exact ⟨⟨v, 0, by simpa using one⟩, rfl, by simp [Varint.encode, beBytesOn, toLeBytes]⟩
  · refine ⟨⟨v, 1, two⟩, rfl, congrArg₂ List.cons (@first 8 1 (by decide) two) ?_⟩
    simp [beBytesOn, toLeBytes]
  · refine ⟨⟨v, 2, four⟩, rfl, congrArg₂ List.cons (@first 24 2 (by decide) four) ?_⟩
    simp [beBytesOn, toLeBytes, Nat.shiftRight_eq_div_pow, Nat.div_div_eq_div_mul]
  · refine ⟨⟨v, 3, small⟩, rfl, congrArg₂ List.cons (@first 56 3 (by decide) small) ?_⟩
    simp [beBytesOn, toLeBytes, Nat.shiftRight_eq_div_pow, Nat.div_div_eq_div_mul]

/-- What is written is read back, from any position and with anything behind it. -/
theorem integers_roundTrip {v n : ℕ} {pattern : UInt8} (front rest : List UInt8) :
    (1 ≤ n → n ≤ 8 → pattern.toNat % 2 ^ n = 0 → v < 2 ^ 64 →
      let http2 := (front ++ encodeInteger pattern n v ++ rest).drop front.length
      let http3 := (front ++ qpackEncodeInt pattern n v ++ rest).drop front.length
      (decodeInteger n http2 = .ok v rest ∧ IntegerFits n http2) ∧
        qpackDecodeInt n http3 = some (v, rest) ∧ IntegerFits n http3) ∧
      (v < 2 ^ 62 →
        decodeVarint ((front ++ encodeVarint v ++ rest).drop front.length) = some (v, rest)) := by
  simp only [List.append_assoc, List.drop_left, qpackEncodeInt, qpackDecodeInt]
  constructor
  · intro _ width clear fits
    obtain ⟨decoded, sums⟩ := decodeInteger_encodeInteger width clear fits rest
    rw [decoded]
    exact ⟨⟨rfl, sums⟩, rfl, sums⟩
  · intro small
    obtain ⟨w, rfl, written⟩ := encodeVarint_eq small
    rw [written, decodeVarint_encode]

/-- The largest integer takes ten groups of seven bits. -/
theorem integers_roundTrip_largest :
    decodeInteger 5 (([1] ++ encodeInteger 0xE0 5 (2 ^ 64 - 1) ++ [7]).drop 1) =
      .ok (2 ^ 64 - 1) [7] :=
  ((integers_roundTrip [1] [7]).1 (by decide) (by decide) (by decide) (by decide)).1.1

end SmartOs.Net.Quic
