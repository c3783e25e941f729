/-
# SmartPack values and wire constants

`Value` is the dynamically typed datum of the SmartPack serialization format, and
the constants below are its tag bytes. Every length-prefixed family (strings, binary
blobs, arrays and maps) uses the same four header forms: an inline length in the tag
byte, or an explicit 8-, 16- or 32-bit length. A `LengthForm` records the five
constants of one family.

Floats are kept as their bit patterns, since the codec never interprets them.
-/

import Mathlib.Data.Vector.Basic

namespace SmartOs.SmartPack

/-- A dynamically typed SmartPack value. -/
inductive Value where
  | null
  | bool (v : Bool)
  | uint8 (v : UInt8)
  | uint16 (v : UInt16)
  | uint32 (v : UInt32)
  | uint64 (v : UInt64)
  | uint128 (v : BitVec 128)
  | int8 (v : Int8)
  | int16 (v : Int16)
  | int32 (v : Int32)
  | int64 (v : Int64)
  | float32 (bits : UInt32)
  | float64 (bits : UInt64)
  | string (s : String)
  | binary (b : List UInt8)
  | array (items : List Value)
  | map (pairs : List (Value × Value))
  | timestamp (nanos : UInt64)
  | uuid (uuid : List.Vector UInt8 16)
  | extension (typeId : UInt8) (data : List UInt8)

/-! ## Tag constants -/

def fixintMax : UInt8 := 0x7F

def tagUint8 : UInt8 := 0x80
def tagUint16 : UInt8 := 0x81
def tagUint32 : UInt8 := 0x82
def tagUint64 : UInt8 := 0x83
def tagUint128 : UInt8 := 0x84

def negFixintBase : UInt8 := 0x90
def negFixintMax : UInt8 := 0x9B
def negFixintCount : UInt8 := 12

def tagInt8 : UInt8 := 0x9C
def tagInt16 : UInt8 := 0x9D
def tagInt32 : UInt8 := 0x9E
def tagInt64 : UInt8 := 0x9F

def tagFloat32 : UInt8 := 0xA1
def tagFloat64 : UInt8 := 0xA2

def tagNull : UInt8 := 0xF0
def tagFalse : UInt8 := 0xF1
def tagTrue : UInt8 := 0xF2
def tagTimestamp : UInt8 := 0xF3
def tagUuid : UInt8 := 0xF4
def tagExt : UInt8 := 0xF9

/-- The header constants of one length-prefixed family: tags `base` to `base + maxLen`
carry the length inline, the other three announce an explicit length. The forms do not
overlap. -/
structure LengthForm where
  base : UInt8
  maxLen : UInt8
  tag8 : UInt8
  tag16 : UInt8
  tag32 : UInt8
  inline_lt : base.toNat + maxLen.toNat < tag8.toNat
  tag8_lt : tag8.toNat < tag16.toNat
  tag16_lt : tag16.toNat < tag32.toNat

/-- `FIXSTR_BASE`, `FIXSTR_MAX_LEN`, `TAG_STR8`, `TAG_STR16`, `TAG_STR32`. -/
def strForm : LengthForm :=
  ⟨0xB0, 11, 0xBC, 0xBD, 0xBE, by decide, by decide, by decide⟩

/-- `FIXBIN_BASE`, `FIXBIN_MAX_LEN`, `TAG_BIN8`, `TAG_BIN16`, `TAG_BIN32`. -/
def binForm : LengthForm :=
  ⟨0xC0, 11, 0xCC, 0xCD, 0xCE, by decide, by decide, by decide⟩

/-- `FIXARRAY_BASE`, `FIXARRAY_MAX_LEN`, `TAG_ARRAY8`, `TAG_ARRAY16`, `TAG_ARRAY32`. -/
def arrayForm : LengthForm :=
  ⟨0xD0, 11, 0xDC, 0xDD, 0xDE, by decide, by decide, by decide⟩

/-- `FIXMAP_BASE`, `FIXMAP_MAX_LEN`, `TAG_MAP8`, `TAG_MAP16`, `TAG_MAP32`. -/
def mapForm : LengthForm :=
  ⟨0xE0, 11, 0xEC, 0xED, 0xEE, by decide, by decide, by decide⟩

/-- The UTF-8 bytes of a string, `str::as_bytes`. -/
def strBytes (s : String) : List UInt8 := s.toByteArray.data.toList

/-- `core::str::from_utf8` followed by `String::from`. -/
def fromUtf8 (bytes : List UInt8) : Option String := String.fromUTF8? ⟨bytes.toArray⟩

theorem fromUtf8_strBytes (s : String) : fromUtf8 (strBytes s) = some s := by
  have bytes : (⟨(strBytes s).toArray⟩ : ByteArray) = s.toByteArray := by
    simp [strBytes]
  rw [fromUtf8, bytes, String.fromUTF8?, dif_pos s.isValidUTF8]
  rfl

theorem strBytes_of_fromUtf8 {bytes : List UInt8} {s : String}
    (valid : fromUtf8 bytes = some s) : strBytes s = bytes := by
  simp only [fromUtf8, String.fromUTF8?] at valid
  split at valid
  · cases valid
    rfl
  · cases valid

theorem strBytes_eq_flatMap (s : String) : strBytes s = s.toList.flatMap String.utf8EncodeChar := by
  rw [strBytes, ← String.utf8Encode_toList]
  simp [List.utf8Encode]

namespace Value

/-! ## Structural induction and recursion -/

/-- Induction over values: containers assume the property of every element. -/
@[elab_as_elim]
theorem induct {P : Value → Prop} (null : P .null) (bool : ∀ v, P (.bool v))
    (uint8 : ∀ v, P (.uint8 v)) (uint16 : ∀ v, P (.uint16 v)) (uint32 : ∀ v, P (.uint32 v))
    (uint64 : ∀ v, P (.uint64 v)) (uint128 : ∀ v, P (.uint128 v))
    (int8 : ∀ v, P (.int8 v)) (int16 : ∀ v, P (.int16 v)) (int32 : ∀ v, P (.int32 v))
    (int64 : ∀ v, P (.int64 v)) (float32 : ∀ v, P (.float32 v)) (float64 : ∀ v, P (.float64 v))
    (string : ∀ s, P (.string s)) (binary : ∀ b, P (.binary b))
    (array : ∀ items : List Value, (∀ item ∈ items, P item) → P (.array items))
    (map : ∀ pairs : List (Value × Value), (∀ pair ∈ pairs, P pair.1 ∧ P pair.2) → P (.map pairs))
    (timestamp : ∀ t, P (.timestamp t)) (uuid : ∀ u, P (.uuid u))
    (extension : ∀ t d, P (.extension t d)) (v : Value) : P v :=
  rec (motive_1 := P) (motive_2 := fun items => ∀ item ∈ items, P item)
    (motive_3 := fun pairs => ∀ pair ∈ pairs, P pair.1 ∧ P pair.2)
    (motive_4 := fun pair => P pair.1 ∧ P pair.2)
    null bool uint8 uint16 uint32 uint64 uint128 int8 int16 int32 int64 float32 float64
    string binary array map timestamp uuid extension
    (fun _ mem => absurd mem List.not_mem_nil)
    (fun _ _ head tail _ mem => (List.mem_cons.mp mem).elim (· ▸ head) (tail _))
    (fun _ mem => absurd mem List.not_mem_nil)
    (fun _ _ head tail _ mem => (List.mem_cons.mp mem).elim (· ▸ head) (tail _))
    (fun _ _ key value => ⟨key, value⟩) v

mutual

/-- Container nesting depth: a scalar has depth `0`, an empty container depth `1`. -/
def depth : Value → ℕ
  | .array items => depthItems items + 1
  | .map pairs => depthPairs pairs + 1
  | _ => 0

def depthItems : List Value → ℕ
  | [] => 0
  | item :: items => max item.depth (depthItems items)

def depthPairs : List (Value × Value) → ℕ
  | [] => 0
  | (key, value) :: pairs => max (max key.depth value.depth) (depthPairs pairs)

end

mutual

/-- Every node of the value tree satisfies `good`. -/
def All (good : Value → Prop) : Value → Prop
  | .array items => good (.array items) ∧ AllItems good items
  | .map pairs => good (.map pairs) ∧ AllPairs good pairs
  | v => good v

def AllItems (good : Value → Prop) : List Value → Prop
  | [] => True
  | item :: items => item.All good ∧ AllItems good items

def AllPairs (good : Value → Prop) : List (Value × Value) → Prop
  | [] => True
  | (key, value) :: pairs => key.All good ∧ value.All good ∧ AllPairs good pairs

end

def NotExtension : Value → Prop
  | .extension _ _ => False
  | _ => True

/-- The node's own length, if it has one, fits in a `u32`. -/
def LengthFits : Value → Prop
  | .string s => (strBytes s).length < 2 ^ 32
  | .binary b => b.length < 2 ^ 32
  | .array items => items.length < 2 ^ 32
  | .map pairs => pairs.length < 2 ^ 32
  | .extension _ data => data.length < 2 ^ 32
  | _ => True

def NoExtension (v : Value) : Prop := v.All NotExtension

/-- Every string, binary, array, map and extension length in the value fits in a `u32`. -/
def LengthsFit (v : Value) : Prop := v.All LengthFits

end Value

end SmartOs.SmartPack
