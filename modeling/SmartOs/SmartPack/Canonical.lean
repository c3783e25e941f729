/-
# Canonical re-encoding

A value and its normal form have the same wire form, because the encoder looks at the
number an integer denotes and not at its constructor. With the two halves of the codec
(`decodeValue_yields` and `decodeValue_wire`) this makes decoding followed by encoding a
projection onto canonical byte strings, one that never grows its input.
-/

import SmartOs.SmartPack.RoundTrip

namespace SmartOs.SmartPack

open Value

/-! ## The normal form has the same wire form -/

theorem normUint_number? {n : ℕ} (high : n < 2 ^ 128) : (normUint n).number? = some (n : ℤ) := by
  unfold normUint
  split_ifs with h8 h16 h32 h64
  · rw [number?, UInt8.toNat_ofNat_of_lt' h8]
  · rw [number?, UInt16.toNat_ofNat_of_lt' h16]
  · rw [number?, UInt32.toNat_ofNat_of_lt' h32]
  · rw [number?, UInt64.toNat_ofNat_of_lt' h64]
  · rw [number?, BitVec.toNat_ofNat, Nat.mod_eq_of_lt high]

theorem normInt_number? {n : ℤ} (low : -2 ^ 63 ≤ n) (high : n < 2 ^ 128) :
    (normInt n).number? = some n := by
  unfold normInt
  split_ifs with nonneg h8 h16 h32
  · rw [normUint_number? (by omega), Int.toNat_of_nonneg nonneg]
  · rw [number?, Int8.toInt_ofInt_of_le (by omega) (by omega)]
  · rw [number?, Int16.toInt_ofInt_of_le (by omega) (by omega)]
  · rw [number?, Int32.toInt_ofInt_of_le (by omega) (by omega)]
  · rw [number?, Int64.toInt_ofInt_of_le (by omega) (by omega)]

theorem normInt_wire {n : ℤ} (low : -2 ^ 63 ≤ n) (high : n < 2 ^ 128) :
    (normInt n).wire = wireInt n :=
  wire_of_number? (normInt_number? low high)

namespace Value

theorem normItems_wire {items : List Value} (same : ∀ item ∈ items, item.norm.wire = item.wire) :
    wireItems (normItems items) = wireItems items ∧ (normItems items).length = items.length := by
  induction items with
  | nil => exact ⟨rfl, rfl⟩
  | cons item items ih =>
    obtain ⟨bytes, length⟩ := ih fun item mem => same item (by simp [mem])
    simp [normItems, wireItems, bytes, length, same item (by simp)]

theorem normPairs_wire {pairs : List (Value × Value)}
    (same : ∀ pair ∈ pairs, pair.1.norm.wire = pair.1.wire ∧ pair.2.norm.wire = pair.2.wire) :
    wirePairs (normPairs pairs) = wirePairs pairs ∧ (normPairs pairs).length = pairs.length := by
  induction pairs with
  | nil => exact ⟨rfl, rfl⟩
  | cons pair pairs ih =>
    obtain ⟨key, value⟩ := pair
    obtain ⟨bytes, length⟩ := ih fun pair mem => same pair (by simp [mem])
    obtain ⟨hkey, hvalue⟩ := same (key, value) (by simp)
    simp [normPairs, wirePairs, bytes, length, hkey, hvalue]

theorem norm_wire (v : Value) : v.norm.wire = v.wire := by
  induction v using induct with
  | null | bool | float32 | float64 | string | binary | timestamp | uuid | extension => rfl
  | uint8 n | uint16 n | uint32 n | uint64 n =>
    have := n.toNat_lt
    exact normInt_wire (by omega) (by omega)
  | uint128 n =>
    exact normInt_wire (by omega) (by omega)
  | int8 n | int16 n | int32 n | int64 n =>
    have := n.toInt_lt
    have := n.le_toInt
    exact normInt_wire (by omega) (by omega)
  | array items ih =>
    obtain ⟨bytes, length⟩ := normItems_wire ih
    rw [norm, wire, wire, bytes, length]
  | map pairs ih =>
    obtain ⟨bytes, length⟩ := normPairs_wire ih
    rw [norm, wire, wire, bytes, length]

end Value

/-! ## Decoding, then encoding -/

/-- Whatever was decoded can be encoded, in no more bytes than were read, and decoding
those bytes gives a value that encodes to the same bytes again. -/
theorem encode_decodeValue {d d' : Decoder} {v : Value} (decoded : decodeValue d = .ok v d') :
    ∃ bytes, encode v = .ok bytes ∧ bytes.length ≤ d'.pos - d.pos ∧
      ∃ w, decode bytes = .ok w ∧ encode w = .ok bytes := by
  obtain ⟨n, rfl, -, accepted⟩ := decodeValue_yields d v d' decoded
  refine ⟨v.wire, encode_eq_ok v accepted.fits, ?_, v.norm, ?_⟩
  · have := accepted.wire_le
    simp only [Decoder.advance_pos]
    omega
  -- reading the canonical bytes again cannot fail: what was accepted has no extension and
  -- is not nested too deeply
  have outcome := decodeValue_wire v accepted.fits []
  rw [List.append_nil] at outcome
  rcases outcome with ⟨ok, -⟩ | ⟨e, d', -, ⟨-, ext⟩ | ⟨-, deep⟩⟩
  · refine ⟨by rw [decode, ok], ?_⟩
    obtain ⟨m, -, -, again⟩ := decodeValue_yields _ _ _ ok
    rw [encode_eq_ok _ again.fits, norm_wire]
  · exact absurd accepted.noExtension ext
  · have := accepted.depth_le
    omega

/-- A three-byte header and a five-byte integer shrink to three bytes in all. -/
theorem encode_decodeValue_wide : decodeValue (Decoder.new [0xDD, 1, 0, 0x82, 200, 0, 0, 0]) =
        .ok (.array [.uint32 200]) ⟨[0xDD, 1, 0, 0x82, 200, 0, 0, 0], 8, 0⟩ ∧
      ∃ bytes, encode (.array [.uint32 200]) = .ok bytes ∧ bytes.length ≤ 8 - 0 ∧
        ∃ w, decode bytes = .ok w ∧ encode w = .ok bytes := by
  have decoded : decodeValue (Decoder.new [0xDD, 1, 0, 0x82, 200, 0, 0, 0]) =
      .ok (.array [.uint32 200]) ⟨[0xDD, 1, 0, 0x82, 200, 0, 0, 0], 8, 0⟩ := rfl
  exact ⟨decoded, encode_decodeValue decoded⟩

end SmartOs.SmartPack
