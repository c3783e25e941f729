/-
# HPACK header compression

The static table, the prefix integers, the string literals, the encoder and the decoder of
`net/http2.rs`. A function of the source that takes a position and returns how many bytes it
consumed is a computation over the bytes that are left.
-/

import Mathlib.Data.Nat.Bitwise
import SmartOs.CS.Reader
import SmartOs.SmartPack.Format

namespace SmartOs.Net.Hpack

open CS SmartPack

inductive H2Error where
  | io
  | protocol (message : String)
  | goAway (code : UInt32)
  | streamError (stream code : UInt32)
  | hpackError
  | closed
  deriving DecidableEq

/-- A header field: its name and its value. -/
abbrev Header := String × String

def hpackStatic : List Header :=
  [(":authority", ""),
   (":method", "GET"),
   (":method", "POST"),
   (":path", "/"),
   (":path", "/index.html"),
   (":scheme", "http"),
   (":scheme", "https"),
   (":status", "200"),
   (":status", "204"),
   (":status", "206"),
   (":status", "304"),
   (":status", "400"),
   (":status", "404"),
   (":status", "500"),
   ("accept-charset", ""),
   ("accept-encoding", "gzip, deflate"),
   ("accept-language", ""),
   ("accept-ranges", ""),
   ("accept", ""),
   ("access-control-allow-origin", ""),
   ("age", ""),
   ("allow", ""),
   ("authorization", ""),
   ("cache-control", ""),
   ("content-disposition", ""),
   ("content-encoding", ""),
   ("content-language", ""),
   ("content-length", ""),
   ("content-location", ""),
   ("content-range", ""),
   ("content-type", ""),
   ("cookie", ""),
   ("date", ""),
   ("etag", ""),
   ("expect", ""),
   ("expires", ""),
   ("from", ""),
   ("host", ""),
   ("if-match", ""),
   ("if-modified-since", ""),
   ("if-none-match", ""),
   ("if-range", ""),
   ("if-unmodified-since", ""),
   ("last-modified", ""),
   ("link", ""),
   ("location", ""),
   ("max-forwards", ""),
   ("proxy-authenticate", ""),
   ("proxy-authorization", ""),
   ("range", ""),
   ("referer", ""),
   ("refresh", ""),
   ("retry-after", ""),
   ("server", ""),
   ("set-cookie", ""),
   ("strict-transport-security", ""),
   ("transfer-encoding", ""),
   ("user-agent", ""),
   ("vary", ""),
   ("via", ""),
   ("www-authenticate", "")]

theorem length_hpackStatic : hpackStatic.length = 61 := rfl

/-! ## The encoder -/

/-- The loop of `encode_integer`: groups of seven bits, the lowest first. -/
def encodeContinuation (v : ℕ) : List UInt8 :=
  if v ≥ 128 then (0x80 ||| .ofNat (v &&& 0x7F)) :: encodeContinuation (v >>> 7)
  else [.ofNat v]
termination_by v
decreasing_by
  rw [Nat.shiftRight_eq_div_pow]
  omega

def encodeInteger (pattern : UInt8) (n value : ℕ) : List UInt8 :=
  let maxPrefix := 2 ^ n - 1
  if value < maxPrefix then [pattern ||| .ofNat value]
  else (pattern ||| .ofNat maxPrefix) :: encodeContinuation (value - maxPrefix)

def encodeString (s : String) : List UInt8 :=
  encodeInteger 0x00 7 (strBytes s).length ++ strBytes s

/-- The first entry of the static table with the name. -/
def nameIndex (name : String) : Option ℕ := hpackStatic.findIdx? (·.1 = name)

/-- The static table has fewer than 127 entries, so an exact match is always used. -/
def hpackEncodeHeader (header : Header) : List UInt8 :=
  match hpackStatic.findIdx? (· = header) with
  | some idx => [0x80 ||| .ofNat (idx + 1)]
  | none =>
    match nameIndex header.1 with
    | some idx => (0x00 ||| .ofNat (idx + 1) &&& 0x0F) :: encodeString header.2
    | none => 0x00 :: (encodeString header.1 ++ encodeString header.2)

def encodeHeaders (headers : List Header) : List UInt8 := headers.flatMap hpackEncodeHeader

/-! ## Huffman codes -/

/-- Code, length of the code, symbol. -/
def huffmanTable : List (ℕ × ℕ × Char) :=
  [(0x00, 5, '0'), (0x01, 5, '1'), (0x02, 5, '2'), (0x05, 5, 'a'), (0x06, 5, 'c'),
   (0x07, 5, 'e'), (0x08, 5, 'i'), (0x09, 5, 'o'), (0x0a, 5, 's'), (0x0b, 5, 't'),
   (0x14, 6, ' '), (0x15, 6, '%'), (0x16, 6, '-'), (0x17, 6, '.'), (0x18, 6, '/'),
   (0x19, 6, '3'), (0x1a, 6, '4'), (0x1b, 6, '5'), (0x1c, 6, '6'), (0x1d, 6, '7'),
   (0x1e, 6, '8'), (0x1f, 6, '9'), (0x20, 6, '='), (0x21, 6, 'A'), (0x22, 6, '_'),
   (0x23, 6, 'b'), (0x24, 6, 'd'), (0x25, 6, 'f'), (0x26, 6, 'g'), (0x27, 6, 'h'),
   (0x28, 6, 'l'), (0x29, 6, 'm'), (0x2a, 6, 'n'), (0x2b, 6, 'p'), (0x2c, 6, 'r'), (0x2d, 6, 'u')]

/-- The symbol at the top of the accumulator and the number of its bits. A code that is not
in the table is taken for a byte of its own. -/
def huffmanLookup (bits nbits : ℕ) : Option (UInt8 × ℕ) :=
  match huffmanTable.find? fun (code, codeLen, _) =>
      codeLen ≤ nbits ∧ bits >>> (nbits - codeLen) &&& (2 ^ codeLen - 1) = code with
  | some (_, codeLen, sym) => some (sym.toUInt8, codeLen)
  | none => if nbits ≥ 8 then some (.ofNat (bits >>> (nbits - 8)), 8) else none

theorem huffmanLookup_length {bits nbits len : ℕ} {sym : UInt8}
    (found : huffmanLookup bits nbits = some (sym, len)) : 5 ≤ len ∧ len ≤ nbits := by
  unfold huffmanLookup at found
  split at found
  · rename_i code codeLen symbol entry
    cases found
    have long : ∀ row ∈ huffmanTable, 5 ≤ row.2.1 := by decide
    have fits := List.find?_some entry
    simp only [decide_eq_true_eq] at fits
    exact ⟨long _ (List.mem_of_find?_eq_some entry), fits.1⟩
  · split at found
    · cases found
      omega
    · cases found

/-- The accumulator of `huffman_decode`. It never holds more than 15 bits. -/
structure HuffmanState where
  out : List UInt8
  bits : ℕ
  nbits : ℕ

/-- The inner loop of `huffman_decode`: hand out symbols while there are any. -/
def HuffmanState.drain (s : HuffmanState) : HuffmanState :=
  match _ : huffmanLookup s.bits s.nbits with
  | some (sym, len) =>
    let shift := s.nbits - len
    drain ⟨s.out ++ [sym], s.bits &&& (1 <<< shift - 1), s.nbits - len⟩
  | none => s
termination_by s.nbits
decreasing_by
  have length := huffmanLookup_length (by assumption)
  omega

/-- One byte of the input. -/
def HuffmanState.feed (s : HuffmanState) (byte : UInt8) : HuffmanState :=
  drain { s with bits := s.bits <<< 8 ||| byte.toNat, nbits := s.nbits + 8 }

def huffmanDecode (src : List UInt8) : Option (List UInt8) :=
  let s := src.foldl HuffmanState.feed ⟨[], 0, 0⟩
  if s.nbits > 7 then none
  else
    let mask := 1 <<< s.nbits - 1
    if s.nbits > 0 ∧ s.bits &&& mask ≠ mask then none else some s.out

/-! ## Integers and strings -/

/-- Computations that read a header block. -/
abbrev Reader := EStateM H2Error (List UInt8)

/-- The loop of `decode_integer`. The sum wraps around at 64 bits. -/
def decodeContinuation (value shift : ℕ) : List UInt8 → EStateM.Result H2Error (List UInt8) ℕ
  | [] => .error .hpackError []
  | b :: src =>
    let sum := (value + (b.toNat &&& 0x7F) <<< shift % 2 ^ 64) % 2 ^ 64
    if b &&& 0x80 = 0 then .ok sum src
    else if shift + 7 > 63 then .error .hpackError src
    else decodeContinuation sum (shift + 7) src

def decodeInteger (n : ℕ) : Reader ℕ := fun src =>
  match src with
  | [] => .error .hpackError []
  | b :: src =>
    let mask := 2 ^ n - 1
    let first := b.toNat &&& mask
    if first < mask then .ok first src else decodeContinuation mask 0 src

/-- The bytes `src[start..end]`. In the source the addition that computes `end` wraps around
for a length close to `2 ^ 64`, and the slice then panics; such a length is refused here. -/
def takeBytes (len : ℕ) : Reader (List UInt8) := fun src =>
  if len > src.length then .error .hpackError src else .ok (src.take len) (src.drop len)

def decodeString : Reader String := fun src =>
  match src with
  | [] => .error .hpackError []
  | b :: src => decodeWith (b &&& 0x80 ≠ 0) (b :: src)
where
  /-- The string, once its first byte has said whether it is compressed. -/
  decodeWith (huffman : Bool) : Reader String := do
    let len ← decodeInteger 7
    let raw ← takeBytes len
    let bytes ← orThrow (if huffman then huffmanDecode raw else some raw) .hpackError
    orThrow (fromUtf8 bytes) .hpackError

/-! ## The decoder -/

structure HpackDecoder where
  dynamicTable : List Header
  maxSize : ℕ
  currentSize : ℕ

namespace HpackDecoder

def new : HpackDecoder := ⟨[], 4096, 0⟩

variable (d : HpackDecoder)

def lookup (index : ℕ) : Option Header :=
  if index = 0 then none
  else if index ≤ hpackStatic.length then hpackStatic[index - 1]?
  else d.dynamicTable[index - hpackStatic.length - 1]?

/-- What an entry counts for in the size of the table. -/
def entrySize (header : Header) : ℕ :=
  (strBytes header.1).length + (strBytes header.2).length + 32

/-- Drop the oldest entries until there is room for as many bytes, or nothing is left. -/
def evict (room : ℕ) (d : HpackDecoder) : HpackDecoder :=
  if d.currentSize + room > d.maxSize then
    match _ : d.dynamicTable.getLast? with
    | some last =>
      evict room { d with
        dynamicTable := d.dynamicTable.dropLast
        currentSize := d.currentSize - entrySize last }
    | none => d
  else d
termination_by d.dynamicTable.length
decreasing_by
  have filled : d.dynamicTable ≠ [] := by
    rintro empty
    simp_all
  have := List.length_pos_iff.mpr filled
  simp only [List.length_dropLast]
  omega

def addToTable (header : Header) : HpackDecoder :=
  let d := d.evict (entrySize header)
  if entrySize header ≤ d.maxSize then
    { d with
      currentSize := d.currentSize + entrySize header
      dynamicTable := header :: d.dynamicTable }
  else d

/-- The name of a literal: a string of its own, or the name of a table entry. -/
def literalName (idx : ℕ) : Reader String :=
  if idx = 0 then decodeString
  else do
    let entry ← orThrow (d.lookup idx) .hpackError
    return entry.1

/-- A literal with an index of `n` bits. -/
def literal (n : ℕ) : Reader Header := do
  let idx ← decodeInteger n
  let name ← d.literalName idx
  let value ← decodeString
  return (name, value)

/-- One round of the loop of `decode`, by the first byte of the representation: the decoder
afterwards and the header that is pushed, if any. -/
def representation (b : UInt8) : Reader (HpackDecoder × List Header) :=
  if b &&& 0x80 ≠ 0 then do
    let idx ← decodeInteger 7
    let header ← orThrow (d.lookup idx) .hpackError
    return (d, [header])
  else if b &&& 0xC0 = 0x40 then do
    let header ← d.literal 6
    return (d.addToTable header, [header])
  else if b &&& 0xF0 = 0x00 ∨ b &&& 0xF0 = 0x10 then do
    let header ← d.literal 4
    return (d, [header])
  else if b &&& 0xE0 = 0x20 then do
    let newSize ← decodeInteger 5
    return (evict 0 { d with maxSize := newSize }, [])
  else do
    modify List.tail
    return (d, [])

end HpackDecoder

/-! ### Every representation takes bytes -/

theorem decodeContinuation_shortens {value shift v : ℕ} {src rest : List UInt8}
    (decoded : decodeContinuation value shift src = .ok v rest) : rest.length + 1 ≤ src.length := by
  fun_induction decodeContinuation value shift src with
  | case1 => cases decoded
  | case2 value shift b src sum last =>
    simp only [EStateM.Result.ok.injEq] at decoded
    rw [← decoded.2]
    exact le_refl _
  | case3 => cases decoded
  | case4 value shift b src sum more inside ih =>
    have := ih decoded
    simp only [List.length_cons]
    omega

theorem decodeInteger_consumes (n : ℕ) : Consumes List.length 1 (decodeInteger n) := by
  intro src v rest decoded
  cases src with
  | nil => cases decoded
  | cons b src =>
    simp only [decodeInteger] at decoded
    split at decoded
    · cases decoded
      exact le_refl _
    · have := decodeContinuation_shortens decoded
      simp only [List.length_cons]
      omega

theorem takeBytes_consumes (len : ℕ) : Consumes List.length 0 (takeBytes len) := by
  intro src raw rest taken
  simp only [takeBytes] at taken
  split at taken
  · cases taken
  · cases taken
    simp

theorem orThrow_consumes {α : Type} (value : Option α) (e : H2Error) :
    Consumes List.length 0 (orThrow value e : Reader α) := by
  cases value with
  | none => exact .throw e
  | some a => exact .pure a

theorem decodeString_consumes : Consumes List.length 0 decodeString := by
  intro src s rest decoded
  cases src with
  | nil => cases decoded
  | cons b src =>
    have body (huffman : Bool) : Consumes List.length 0 (decodeString.decodeWith huffman) :=
      ((decodeInteger_consumes 7).mono (Nat.zero_le 1)).bind_left fun len =>
        (takeBytes_consumes len).bind_left fun raw =>
          (orThrow_consumes _ _).bind_left fun _ => orThrow_consumes _ _
    exact body _ decoded

namespace HpackDecoder

theorem literal_consumes (d : HpackDecoder) (n : ℕ) : Consumes List.length 1 (d.literal n) := by
  refine (decodeInteger_consumes n).bind_left fun idx => ?_
  have name : Consumes List.length 0 (d.literalName idx) := by
    unfold literalName
    split
    · exact decodeString_consumes
    · exact (orThrow_consumes _ _).bind_left fun _ => .pure _
  exact name.bind_left fun _ => decodeString_consumes.bind_left fun _ => .pure _

theorem representation_shortens {d d' : HpackDecoder} {b : UInt8} {src rest : List UInt8}
    {pushed : List Header} (decoded : d.representation b (b :: src) = .ok (d', pushed) rest) :
    rest.length < (b :: src).length := by
  unfold representation at decoded
  split at decoded
  · exact ((decodeInteger_consumes 7).bind_left fun _ =>
      (orThrow_consumes _ _).bind_left fun _ => .pure _) decoded
  split at decoded
  · exact ((d.literal_consumes 6).bind_left fun _ => .pure _) decoded
  split at decoded
  · exact ((d.literal_consumes 4).bind_left fun _ => .pure _) decoded
  split at decoded
  · exact ((decodeInteger_consumes 5).bind_left fun _ => .pure _) decoded
  · cases decoded
    exact Nat.lt_succ_self _

/-- The loop of `decode`, with the headers pushed so far. -/
def decodeFrom (d : HpackDecoder) (headers : List Header) (src : List UInt8) :
    EStateM.Result H2Error HpackDecoder (List Header) :=
  match src with
  | [] => .ok headers d
  | b :: rest =>
    match _ : d.representation b (b :: rest) with
    | .ok (d', pushed) src' => decodeFrom d' (headers ++ pushed) src'
    | .error e _ => .error e d
termination_by src.length
decreasing_by exact representation_shortens (by assumption)

/-- Decode a header block. It succeeds only when no byte is left. -/
def decode (src : List UInt8) : EStateM H2Error HpackDecoder (List Header) := fun d =>
  d.decodeFrom [] src

end HpackDecoder

end SmartOs.Net.Hpack
