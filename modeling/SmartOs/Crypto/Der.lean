/-
# DER elements

The reader of tag-length-value elements of `crypto/x509.rs`, and the DER encoding of an element
it is meant for. An element with a single tag byte is read back with any bytes after it, and a
sequence of elements is read back as the list of its elements.
-/

import SmartOs.Math.BigEndian

namespace SmartOs.Crypto

open Math List

/-- The field `class` of the source is `tagClass` here. -/
structure Tlv where
  tag : UInt8
  tagClass : UInt8
  constructed : Bool
  content : List UInt8
  deriving DecidableEq

/-- The loop over a tag of several bytes: only the last seven bits are kept. -/
def longTag (t : UInt8) : List UInt8 → UInt8 × List UInt8
  | [] => (t, [])
  | b :: data => if b &&& 0x80 = 0 then (b &&& 0x7F, data) else longTag (b &&& 0x7F) data

/-- The tag, and the bytes after it. -/
def parseTag (tagByte : UInt8) (data : List UInt8) : UInt8 × List UInt8 :=
  if tagByte &&& 0x1F = 0x1F then longTag 0 data else (tagByte, data)

/-- The length, and the bytes after it. The sum wraps around at 64 bits. -/
def parseLength : List UInt8 → Option (ℕ × List UInt8)
  | [] => none
  | b :: data =>
    if b &&& 0x80 = 0 then some (b.toNat, data)
    else
      let numBytes := (b &&& 0x7F).toNat
      if numBytes > data.length then none
      else some ((data.take numBytes).foldl (fun l b => (l <<< 8 ||| b.toNat) % 2 ^ 64) 0,
        data.drop numBytes)

/-- An element and the bytes after it. In the source the addition of the length wraps around
for a length close to `2 ^ 64`, and the slice then panics; such a length is refused here. -/
def parseTlv : List UInt8 → Option (Tlv × List UInt8)
  | [] => none
  | tagByte :: data => do
    let tag := parseTag tagByte data
    let (len, data) ← parseLength tag.2
    if len > data.length then none
    else some (⟨tag.1, tagByte >>> 6 &&& 3, tagByte &&& 0x20 ≠ 0, data.take len⟩, data.drop len)

theorem length_longTag (t : UInt8) (data : List UInt8) :
    (longTag t data).2.length ≤ data.length := by
  fun_induction longTag t data with
  | case1 t => exact le_refl _
  | case2 t b data last => exact Nat.le_succ _
  | case3 t b data more ih => exact Nat.le_succ_of_le ih

theorem parseLength_shortens {data rest : List UInt8} {len : ℕ}
    (parsed : parseLength data = some (len, rest)) : rest.length ≤ data.length := by
  cases data with
  | nil => cases parsed
  | cons b data =>
    simp only [parseLength] at parsed
    split at parsed
    · cases parsed
      exact Nat.le_succ _
    split at parsed
    · cases parsed
    cases parsed
    simp only [length_drop, length_cons]
    omega

theorem parseTlv_shortens {data rest : List UInt8} {tlv : Tlv}
    (parsed : parseTlv data = some (tlv, rest)) : rest.length < data.length := by
  cases data with
  | nil => cases parsed
  | cons tagByte data =>
    obtain ⟨⟨len, after⟩, length, parsed⟩ := Option.bind_eq_some_iff.mp parsed
    have first : (parseTag tagByte data).2.length ≤ data.length := by
      unfold parseTag
      split
      · exact length_longTag 0 data
      · exact le_refl _
    have second := parseLength_shortens length
    simp only at parsed
    split at parsed
    · cases parsed
    cases parsed
    simp only [length_drop, length_cons]
    omega

/-- The elements of a constructed element, up to the first one that cannot be read. -/
def children (content : List UInt8) : List Tlv :=
  match _ : parseTlv content with
  | some (child, rest) => child :: children rest
  | none => []
termination_by content.length
decreasing_by exact parseTlv_shortens (by assumption)

def tlvChildren (tlv : Tlv) : List Tlv := children tlv.content

/-! ## Tags -/

def tagBool : UInt8 := 0x01
def tagInt : UInt8 := 0x02
def tagBitstring : UInt8 := 0x03
def tagOctetstring : UInt8 := 0x04
def tagNull : UInt8 := 0x05
def tagOid : UInt8 := 0x06
def tagUtf8str : UInt8 := 0x0C
def tagPrintstr : UInt8 := 0x13
def tagIa5str : UInt8 := 0x16
def tagUtctime : UInt8 := 0x17
def tagGentime : UInt8 := 0x18
def tagSequence : UInt8 := 0x30
def tagSet : UInt8 := 0x31

/-! ## Encoding -/

namespace Der

/-- A length in its shortest form. -/
def length (n : ℕ) : List UInt8 :=
  if n < 128 then [.ofNat n]
  else .ofNat (128 + (toBeBytes n).length) :: toBeBytes n

/-- An element with a tag of one byte. -/
def element (tag : UInt8) (content : List UInt8) : List UInt8 :=
  tag :: (length content.length ++ content)

/-- What the reader makes of an element. -/
def tlv (tag : UInt8) (content : List UInt8) : Tlv :=
  ⟨tag, tag >>> 6 &&& 3, tag &&& 0x20 ≠ 0, content⟩

theorem parseLength_length {n : ℕ} (fits : n < 2 ^ 64) (rest : List UInt8) :
    parseLength (length n ++ rest) = some (n, rest) := by
  unfold length
  split
  · rename_i short
    have byte : (UInt8.ofNat n).toNat = n := UInt8.toNat_ofNat_of_lt' (by
      show n < 256
      omega)
    have all : ∀ m < 128, UInt8.ofNat m &&& 0x80 = 0 := by decide
    rw [singleton_append, parseLength, if_pos (all n short), byte]
  · have few : (toBeBytes n).length ≤ 8 := length_toBeBytes_le fits
    have all : ∀ k ≤ 8, ¬ UInt8.ofNat (128 + k) &&& 0x80 = 0 ∧
        (UInt8.ofNat (128 + k) &&& 0x7F).toNat = k := by decide
    obtain ⟨high, low⟩ := all _ few
    rw [cons_append, parseLength, if_neg high, low, if_neg (by simp), take_left,
      drop_left, foldl_shift_or_of_lt (by rwa [ofBeBytes_toBeBytes]), ofBeBytes_toBeBytes]

section

variable {tag : UInt8} {content : List UInt8} (single : tag &&& 0x1F ≠ 0x1F)
  (fits : content.length < 2 ^ 64) (rest : List UInt8)

include single fits rest

theorem parseTlv_element :
    parseTlv (element tag content ++ rest) = some (tlv tag content, rest) := by
  rw [element, cons_append, parseTlv, parseTag, if_neg single]
  simp [parseLength_length fits, tlv]

theorem children_element_append :
    children (element tag content ++ rest) = tlv tag content :: children rest := by
  rw [children]
  split
  · rename_i parsed
    rw [parseTlv_element single fits] at parsed
    cases parsed
    rfl
  · rename_i none
    rw [parseTlv_element single fits] at none
    cases none

end

@[simp] theorem children_nil : children [] = [] := by
  rw [children]
  rfl

theorem length_lt_element (tag : UInt8) (content : List UInt8) :
    content.length < (element tag content).length := by
  simp only [element, length_cons, length_append]
  omega

/-- A tag and a content. -/
abbrev Field := UInt8 × List UInt8

def elements (fields : List Field) : List UInt8 :=
  fields.flatMap fun field => element field.1 field.2

variable {fields : List Field}

theorem length_content_le {field : Field} (mem : field ∈ fields) :
    field.2.length ≤ (elements fields).length := by
  induction fields with
  | nil => cases mem
  | cons head fields ih =>
    rw [elements, flatMap_cons, length_append, element, length_cons, length_append]
    rcases mem_cons.mp mem with rfl | mem
    · omega
    have later := ih mem
    rw [elements] at later
    omega

theorem children_elements (single : ∀ field ∈ fields, field.1 &&& 0x1F ≠ 0x1F)
    (fits : (elements fields).length < 2 ^ 64) :
    children (elements fields) = fields.map fun field => tlv field.1 field.2 := by
  induction fields with
  | nil => simp [elements]
  | cons field fields ih =>
    have inside := length_content_le (@mem_cons_self _ field fields)
    rw [elements, flatMap_cons] at fits inside ⊢
    rw [length_append] at fits inside
    have later := ih (fun f mem => single f (mem_cons_of_mem _ mem)) (by
      rw [elements]
      omega)
    rw [elements] at later
    rw [children_element_append (single field mem_cons_self) (by omega), later, map_cons]

end Der

end SmartOs.Crypto
