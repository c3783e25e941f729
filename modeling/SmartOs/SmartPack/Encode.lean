/-
# The SmartPack encoder

The encoder appends to a growable buffer and can fail only on a length that does not
fit in a `u32`. `Value.wire` states what it appends in terms of the numbers and
lengths a value carries, not of the constructors that carry them: an integer is
written by its numeric value, in the shortest form that holds it.

`encodeValue_eq_ok` connects the two: on values whose lengths fit, the encoder
succeeds and appends exactly `Value.wire`.
-/

import SmartOs.CS.StateError
import SmartOs.Math.LittleEndian
import SmartOs.SmartPack.Format

namespace SmartOs.SmartPack

open SmartOs.CS SmartOs.Math UInt64 Value

inductive EncodeError where
  | bufferTooSmall (needed available : ℕ)
  | stringTooLong (len : ℕ)
  | binaryTooLong (len : ℕ)
  | arrayTooLong (len : ℕ)
  | mapTooLong (len : ℕ)

/-- An encoder writing into a growable buffer. -/
structure Encoder where
  buf : List UInt8

/-- Encoding steps: they update the buffer and may fail, keeping what was written. -/
abbrev EncodeM := EStateM EncodeError Encoder

variable (e : Encoder)

namespace Encoder

def push (byte : UInt8) : Encoder := ⟨e.buf ++ [byte]⟩

def extendFromSlice (bytes : List UInt8) : Encoder := ⟨e.buf ++ bytes⟩

def encodeNull : Encoder := e.push tagNull

def encodeBool (v : Bool) : Encoder := e.push (if v then tagTrue else tagFalse)

def encodeUint (v : UInt64) : Encoder :=
  if v ≤ fixintMax.toUInt64 then
    e.push v.toUInt8
  else if v ≤ 0xFF then
    (e.push tagUint8).push v.toUInt8
  else if v ≤ 0xFFFF then
    (e.push tagUint16).extendFromSlice (toLeBytes 2 v.toUInt16.toNat)
  else if v ≤ 0xFFFFFFFF then
    (e.push tagUint32).extendFromSlice (toLeBytes 4 v.toUInt32.toNat)
  else
    (e.push tagUint64).extendFromSlice (toLeBytes 8 v.toNat)

def encodeUint128 (v : BitVec 128) : Encoder :=
  if v ≤ 0xFFFFFFFFFFFFFFFF#128 then
    e.encodeUint (ofNat v.toNat)
  else
    (e.push tagUint128).extendFromSlice (toLeBytes 16 v.toNat)

def encodeInt (v : Int64) : Encoder :=
  if v ≥ 0 then
    e.encodeUint v.toUInt64
  else if v ≥ -(Int64.ofNat negFixintCount.toNat) then
    e.push (negFixintBase + (-v - 1).toUInt64.toUInt8)
  else if v ≥ Int8.minValue.toInt64 then
    (e.push tagInt8).push v.toInt8.toUInt8
  else if v ≥ Int16.minValue.toInt64 then
    (e.push tagInt16).extendFromSlice (toLeBytes 2 v.toInt16.toUInt16.toNat)
  else if v ≥ Int32.minValue.toInt64 then
    (e.push tagInt32).extendFromSlice (toLeBytes 4 v.toInt32.toUInt32.toNat)
  else
    (e.push tagInt64).extendFromSlice (toLeBytes 8 v.toUInt64.toNat)

def encodeF32 (bits : UInt32) : Encoder :=
  (e.push tagFloat32).extendFromSlice (toLeBytes 4 bits.toNat)

def encodeF64 (bits : UInt64) : Encoder :=
  (e.push tagFloat64).extendFromSlice (toLeBytes 8 bits.toNat)

def encodeTimestamp (nanos : UInt64) : Encoder :=
  (e.push tagTimestamp).extendFromSlice (toLeBytes 8 nanos.toNat)

def encodeUuid (uuid : List.Vector UInt8 16) : Encoder :=
  (e.push tagUuid).extendFromSlice uuid.toList

def encodeExtension (typeId : UInt8) (data : List UInt8) : Encoder :=
  (((e.push tagExt).push typeId).encodeUint (ofNat data.length)).extendFromSlice data

end Encoder

/-- The shortest header of the family that holds `len`; longer lengths are refused. -/
def LengthForm.encodeHeader (form : LengthForm) (tooLong : ℕ → EncodeError) (len : ℕ) :
    EncodeM Unit :=
  if len ≤ form.maxLen.toNat then
    modify fun e => e.push (form.base + UInt8.ofNat len)
  else if len ≤ 0xFF then
    modify fun e => (e.push form.tag8).push (UInt8.ofNat len)
  else if len ≤ 0xFFFF then
    modify fun e => (e.push form.tag16).extendFromSlice (toLeBytes 2 (UInt16.ofNat len).toNat)
  else if len ≤ 0xFFFFFFFF then
    modify fun e => (e.push form.tag32).extendFromSlice (toLeBytes 4 (UInt32.ofNat len).toNat)
  else
    throw (tooLong len)

def encodeStr (s : String) : EncodeM Unit := do
  strForm.encodeHeader .stringTooLong (strBytes s).length
  modify fun e => e.extendFromSlice (strBytes s)

def encodeBinary (data : List UInt8) : EncodeM Unit := do
  binForm.encodeHeader .binaryTooLong data.length
  modify fun e => e.extendFromSlice data

def encodeArrayHeader (count : ℕ) : EncodeM Unit :=
  arrayForm.encodeHeader .arrayTooLong count

def encodeMapHeader (count : ℕ) : EncodeM Unit :=
  mapForm.encodeHeader .mapTooLong count

mutual

def encodeValue : Value → EncodeM Unit
  | .null => modify fun e => e.encodeNull
  | .bool v => modify fun e => e.encodeBool v
  | .uint8 v => modify fun e => e.encodeUint v.toUInt64
  | .uint16 v => modify fun e => e.encodeUint v.toUInt64
  | .uint32 v => modify fun e => e.encodeUint v.toUInt64
  | .uint64 v => modify fun e => e.encodeUint v
  | .uint128 v => modify fun e => e.encodeUint128 v
  | .int8 v => modify fun e => e.encodeInt v.toInt64
  | .int16 v => modify fun e => e.encodeInt v.toInt64
  | .int32 v => modify fun e => e.encodeInt v.toInt64
  | .int64 v => modify fun e => e.encodeInt v
  | .float32 bits => modify fun e => e.encodeF32 bits
  | .float64 bits => modify fun e => e.encodeF64 bits
  | .timestamp nanos => modify fun e => e.encodeTimestamp nanos
  | .uuid u => modify fun e => e.encodeUuid u
  | .string s => encodeStr s
  | .binary b => encodeBinary b
  | .array items => do
    encodeArrayHeader items.length
    encodeItems items
  | .map pairs => do
    encodeMapHeader pairs.length
    encodePairs pairs
  | .extension typeId data => modify fun e => e.encodeExtension typeId data

def encodeItems : List Value → EncodeM Unit
  | [] => pure ()
  | item :: items => do
    encodeValue item
    encodeItems items

def encodePairs : List (Value × Value) → EncodeM Unit
  | [] => pure ()
  | (key, value) :: pairs => do
    encodeValue key
    encodeValue value
    encodePairs pairs

end

/-- Encode one value into a fresh buffer. -/
def encode (value : Value) : Except EncodeError (List UInt8) :=
  match encodeValue value ⟨[]⟩ with
  | .ok _ e => .ok e.buf
  | .error err _ => .error err

/-! ## The wire format -/

/-- The wire form of a non-negative integer below `2 ^ 128`. -/
def wireUint (n : ℕ) : List UInt8 :=
  if n < 2 ^ 7 then [UInt8.ofNat n]
  else if n < 2 ^ 8 then tagUint8 :: toLeBytes 1 n
  else if n < 2 ^ 16 then tagUint16 :: toLeBytes 2 n
  else if n < 2 ^ 32 then tagUint32 :: toLeBytes 4 n
  else if n < 2 ^ 64 then tagUint64 :: toLeBytes 8 n
  else tagUint128 :: toLeBytes 16 n

/-- The wire form of an integer: negative ones are written in two's complement. -/
def wireInt (n : ℤ) : List UInt8 :=
  if 0 ≤ n then wireUint n.toNat
  else if -12 ≤ n then [negFixintBase + UInt8.ofNat (-n - 1).toNat]
  else if -2 ^ 7 ≤ n then tagInt8 :: toLeBytes 1 (n + 2 ^ 8).toNat
  else if -2 ^ 15 ≤ n then tagInt16 :: toLeBytes 2 (n + 2 ^ 16).toNat
  else if -2 ^ 31 ≤ n then tagInt32 :: toLeBytes 4 (n + 2 ^ 32).toNat
  else tagInt64 :: toLeBytes 8 (n + 2 ^ 64).toNat

/-- The wire form of a length below `2 ^ 32` in a family's header. -/
def LengthForm.wire (form : LengthForm) (len : ℕ) : List UInt8 :=
  if len ≤ form.maxLen.toNat then [form.base + UInt8.ofNat len]
  else if len < 2 ^ 8 then form.tag8 :: toLeBytes 1 len
  else if len < 2 ^ 16 then form.tag16 :: toLeBytes 2 len
  else form.tag32 :: toLeBytes 4 len

namespace Value

/-- The number an integer value denotes. -/
def number? : Value → Option ℤ
  | .uint8 v => some v.toNat
  | .uint16 v => some v.toNat
  | .uint32 v => some v.toNat
  | .uint64 v => some v.toNat
  | .uint128 v => some v.toNat
  | .int8 v => some v.toInt
  | .int16 v => some v.toInt
  | .int32 v => some v.toInt
  | .int64 v => some v.toInt
  | _ => none

mutual

/-- The bytes a value occupies on the wire. -/
def wire : Value → List UInt8
  | .null => [tagNull]
  | .bool v => [if v then tagTrue else tagFalse]
  | .uint8 v => wireInt v.toNat
  | .uint16 v => wireInt v.toNat
  | .uint32 v => wireInt v.toNat
  | .uint64 v => wireInt v.toNat
  | .uint128 v => wireInt v.toNat
  | .int8 v => wireInt v.toInt
  | .int16 v => wireInt v.toInt
  | .int32 v => wireInt v.toInt
  | .int64 v => wireInt v.toInt
  | .float32 bits => tagFloat32 :: toLeBytes 4 bits.toNat
  | .float64 bits => tagFloat64 :: toLeBytes 8 bits.toNat
  | .timestamp nanos => tagTimestamp :: toLeBytes 8 nanos.toNat
  | .uuid u => tagUuid :: u.toList
  | .string s => strForm.wire (strBytes s).length ++ strBytes s
  | .binary b => binForm.wire b.length ++ b
  | .array items => arrayForm.wire items.length ++ wireItems items
  | .map pairs => mapForm.wire pairs.length ++ wirePairs pairs
  | .extension typeId data => tagExt :: typeId :: wireUint data.length ++ data

def wireItems : List Value → List UInt8
  | [] => []
  | item :: items => item.wire ++ wireItems items

def wirePairs : List (Value × Value) → List UInt8
  | [] => []
  | (key, value) :: pairs => key.wire ++ (value.wire ++ wirePairs pairs)

end

theorem wire_of_number? {v : Value} {n : ℤ} (h : v.number? = some n) : v.wire = wireInt n := by
  cases v <;> simp_all [number?, wire]

end Value

/-! ## The encoder writes the wire format -/

namespace Encoder

variable (e : Encoder)

theorem encodeUint_eq (v : UInt64) : e.encodeUint v = ⟨e.buf ++ wireUint v.toNat⟩ := by
  have limits : fixintMax.toUInt64.toNat = 127 ∧ (0xFF : UInt64).toNat = 255 ∧
      (0xFFFF : UInt64).toNat = 65535 ∧ (0xFFFFFFFF : UInt64).toNat = 4294967295 := by decide
  obtain ⟨h7, h8, h16, h32⟩ := limits
  have bound := v.toNat_lt
  unfold encodeUint wireUint
  simp only [le_iff_toNat_le, h16, h32]
  -- both sides split at the same limits, and in range the narrowing casts lose nothing
  split_ifs <;> try omega
  · simp [push]
  · simp [push, toLeBytes]
  · rw [toNat_toUInt16, Nat.mod_eq_of_lt (by omega)]
    simp [push, extendFromSlice]
  · rw [toNat_toUInt32, Nat.mod_eq_of_lt (by omega)]
    simp [push, extendFromSlice]
  · simp [push, extendFromSlice]

theorem encodeUint128_eq (v : BitVec 128) : e.encodeUint128 v = ⟨e.buf ++ wireUint v.toNat⟩ := by
  have limit : (0xFFFFFFFFFFFFFFFF#128).toNat = 2 ^ 64 - 1 := by decide
  unfold encodeUint128
  split_ifs with small <;> rw [BitVec.le_def] at small
  · rw [encodeUint_eq, toNat_ofNat_of_lt' (by change _ < 2 ^ 64; omega)]
  simp only [wireUint, push, extendFromSlice]
  rw [if_neg (by omega), if_neg (by omega), if_neg (by omega), if_neg (by omega),
    if_neg (by omega), List.append_assoc, List.singleton_append]

private theorem int64_toInt_eq (v : Int64) :
    v.toInt = if 2 * v.toUInt64.toNat < 2 ^ 64 then (v.toUInt64.toNat : ℤ)
      else v.toUInt64.toNat - 2 ^ 64 :=
  BitVec.toInt_eq_toNat_cond v.toBitVec

private theorem int64_truncate_toNat (v : Int64) (width : ℕ) (narrow : width ≤ 64) :
    (v.toBitVec.signExtend width).toNat = v.toUInt64.toNat % 2 ^ width := by
  rw [BitVec.signExtend_eq_setWidth_of_le _ narrow, BitVec.toNat_setWidth]
  rfl

theorem encodeInt_eq (v : Int64) : e.encodeInt v = ⟨e.buf ++ wireInt v.toInt⟩ := by
  have limits : (0 : Int64).toInt = 0 ∧ (-(Int64.ofNat negFixintCount.toNat)).toInt = -12 ∧
      Int8.minValue.toInt64.toInt = -128 ∧ Int16.minValue.toInt64.toInt = -32768 ∧
      Int32.minValue.toInt64.toInt = -2147483648 := by decide
  obtain ⟨h0, hfix, h8, h16, h32⟩ := limits
  have reading := int64_toInt_eq v
  have bound := v.toUInt64.toNat_lt
  unfold encodeInt wireInt
  simp only [Int64.le_iff_toInt_le, h0, hfix, h8, h16, h32]
  -- one case for each form; truncating a negative word adds a power of two to its number
  split_ifs at reading ⊢ <;> try omega
  · rw [encodeUint_eq, reading, Int.toNat_natCast]
  · have complement : (-v - 1).toUInt64.toNat = (-v.toInt - 1).toNat := by
      change (-v.toUInt64 - 1).toNat = _
      rw [UInt64.toNat_sub, UInt64.toNat_neg]
      simp only [reduceToNat, size]
      omega
    rw [push, ← complement, UInt8.ofNat_uInt64ToNat]
  · have low : v.toInt8.toUInt8 = UInt8.ofNat (v.toInt + 2 ^ 8).toNat := by
      apply UInt8.toNat_inj.mp
      change (v.toBitVec.signExtend 8).toNat = _
      rw [int64_truncate_toNat v 8 (by decide), UInt8.toNat_ofNat']
      omega
    simp [push, toLeBytes, low]
  · have low : v.toInt16.toUInt16.toNat = (v.toInt + 2 ^ 16).toNat := by
      change (v.toBitVec.signExtend 16).toNat = _
      rw [int64_truncate_toNat v 16 (by decide)]
      omega
    simp [push, extendFromSlice, low]
  · have low : v.toInt32.toUInt32.toNat = (v.toInt + 2 ^ 32).toNat := by
      change (v.toBitVec.signExtend 32).toNat = _
      rw [int64_truncate_toNat v 32 (by decide)]
      omega
    simp [push, extendFromSlice, low]
  · have whole : v.toUInt64.toNat = (v.toInt + 2 ^ 64).toNat := by
      omega
    simp [push, extendFromSlice, whole]

end Encoder

theorem LengthForm.encodeHeader_eq (form : LengthForm) (tooLong : ℕ → EncodeError) {len : ℕ}
    (fits : len < 2 ^ 32) (e : Encoder) :
    form.encodeHeader tooLong len e = .ok () ⟨e.buf ++ form.wire len⟩ := by
  unfold encodeHeader wire
  split_ifs <;> try omega
  · rfl
  · simp [Encoder.push, toLeBytes]
  · rw [UInt16.toNat_ofNat_of_lt' (by change _ < 2 ^ 16; omega)]
    simp [Encoder.push, Encoder.extendFromSlice]
  · rw [UInt32.toNat_ofNat_of_lt' (by change _ < 2 ^ 32; omega)]
    simp [Encoder.push, Encoder.extendFromSlice]

private theorem encodeItems_eq_ok {items : List Value} (encodes : ∀ item ∈ items, item.LengthsFit →
      ∀ e, encodeValue item e = .ok () ⟨e.buf ++ item.wire⟩)
    (fit : Value.AllItems Value.LengthFits items) (e : Encoder) :
    encodeItems items e = .ok () ⟨e.buf ++ wireItems items⟩ := by
  induction items generalizing e with
  | nil => simp [encodeItems, wireItems]
  | cons item items ih =>
    have head := encodes item (by simp) fit.1 e
    have tail := ih (fun item mem => encodes item (by simp [mem])) fit.2
    simp only [encodeItems, wireItems]
    rw [bind_of_ok head, tail, List.append_assoc]

private theorem encodePairs_eq_ok {pairs : List (Value × Value)} (encodes : ∀ pair ∈ pairs,
      (pair.1.LengthsFit → ∀ e, encodeValue pair.1 e = .ok () ⟨e.buf ++ pair.1.wire⟩) ∧
      (pair.2.LengthsFit → ∀ e, encodeValue pair.2 e = .ok () ⟨e.buf ++ pair.2.wire⟩))
    (fit : Value.AllPairs Value.LengthFits pairs) (e : Encoder) :
    encodePairs pairs e = .ok () ⟨e.buf ++ wirePairs pairs⟩ := by
  induction pairs generalizing e with
  | nil => simp [encodePairs, wirePairs]
  | cons pair pairs ih =>
    obtain ⟨key, value⟩ := pair
    obtain ⟨keyFits, valueFits, restFit⟩ := fit
    have head := encodes (key, value) (by simp)
    have tail := ih (fun pair mem => encodes pair (by simp [mem])) restFit
    simp only [encodePairs, wirePairs]
    rw [bind_of_ok (head.1 keyFits e), bind_of_ok (head.2 valueFits _), tail]
    simp

/-- The encoder succeeds on every value whose lengths fit, and appends its wire form. -/
theorem encodeValue_eq_ok (v : Value) (fit : v.LengthsFit) (e : Encoder) :
    encodeValue v e = .ok () ⟨e.buf ++ v.wire⟩ := by
  induction v using induct generalizing e with
  | null | bool | float32 | float64 | timestamp | uuid =>
    simp [encodeValue, wire, Encoder.encodeNull, Encoder.encodeBool, Encoder.encodeF32,
      Encoder.encodeF64, Encoder.encodeTimestamp, Encoder.encodeUuid, Encoder.push,
      Encoder.extendFromSlice]
  | uint8 | uint16 | uint32 | uint64 | uint128 =>
    simp [encodeValue, wire, Encoder.encodeUint_eq, Encoder.encodeUint128_eq, wireInt]
  | int8 | int16 | int32 | int64 => simp [encodeValue, wire, Encoder.encodeInt_eq]
  | string s =>
    rw [encodeValue, encodeStr, bind_of_ok (strForm.encodeHeader_eq _ fit e)]
    simp [wire, Encoder.extendFromSlice]
  | binary b =>
    rw [encodeValue, encodeBinary, bind_of_ok (binForm.encodeHeader_eq _ fit e)]
    simp [wire, Encoder.extendFromSlice]
  | array items ih =>
    rw [encodeValue, encodeArrayHeader, bind_of_ok (arrayForm.encodeHeader_eq _ fit.1 e),
      encodeItems_eq_ok ih fit.2, wire, List.append_assoc]
  | map pairs ih =>
    rw [encodeValue, encodeMapHeader, bind_of_ok (mapForm.encodeHeader_eq _ fit.1 e),
      encodePairs_eq_ok ih fit.2, wire, List.append_assoc]
  | extension typeId data =>
    -- an extension writes its length as an integer and not as a header
    have len : (ofNat data.length).toNat = data.length := by
      apply toNat_ofNat_of_lt'
      have : data.length < 2 ^ 32 := fit
      change _ < 2 ^ 64
      omega
    simp [encodeValue, wire, Encoder.encodeExtension, Encoder.encodeUint_eq, Encoder.push,
      Encoder.extendFromSlice, len]

theorem encode_eq_ok (v : Value) (fit : v.LengthsFit) : encode v = .ok v.wire := by
  simp [encode, encodeValue_eq_ok v fit]

end SmartOs.SmartPack
