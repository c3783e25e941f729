/-
# HTTP/3 responses

The data of a response stream comes in the chunks that packets bring. Each chunk is parsed on its
own as a sequence of frames. The payloads of header and data frames are collected, and once the
stream has ended the response is made from them. Nothing of a chunk is kept for the next one.

So a response does not depend on the chunks as long as each of them is a sequence of whole frames.
A frame that is cut between two chunks is misread.
-/

import SmartOs.Net.Qpack

open SmartOs.Math List
open SmartOs.Net.Hpack (Header)

namespace SmartOs.Net.Quic

/-! ## Streams -/

structure H3StreamBuf where
  headerData : List UInt8
  bodyData : List UInt8
  fin : Bool
  deriving DecidableEq

/-- The open streams of a connection. -/
structure QuicConnection where
  streams : ℕ → Option H3StreamBuf

/-- The effect of a frame. -/
def H3StreamBuf.extend (buf : H3StreamBuf) (ftype : ℕ) (payload : List UInt8) : H3StreamBuf :=
  if ftype = 0x01 then { buf with headerData := buf.headerData ++ payload }
  else if ftype = 0x00 then { buf with bodyData := buf.bodyData ++ payload }
  else buf

/-- Parses frames while their type and length can be read. A payload may be cut short by the end of
the data. Each frame takes two bytes at least. -/
def parseFrames : (fuel : ℕ) → H3StreamBuf → (data : List UInt8) → H3StreamBuf
  | 0, buf, _ => buf
  | fuel + 1, buf, data =>
    match decodeVarint data with
    | none => buf
    | some (ftype, rest) =>
      match decodeVarint rest with
      | none => buf
      | some (flen, rest) =>
        parseFrames fuel (buf.extend ftype (rest.take flen)) (rest.drop flen)

def H3StreamBuf.ingest (buf : H3StreamBuf) (data : List UInt8) (fin : Bool) : H3StreamBuf :=
  let parsed := parseFrames data.length buf data
  if fin then { parsed with fin := true } else parsed

namespace QuicConnection

variable (conn : QuicConnection)

def put (streamId : ℕ) (buf : Option H3StreamBuf) : QuicConnection :=
  ⟨fun id => if id = streamId then buf else conn.streams id⟩

/-- The stream that `build_get_request` opens. -/
def openStream (streamId : ℕ) : QuicConnection :=
  conn.put streamId (some ⟨[], [], false⟩)

def ingestStreamData (streamId : ℕ) (data : List UInt8) (fin : Bool) : QuicConnection :=
  match conn.streams streamId with
  | some buf => conn.put streamId (some (buf.ingest data fin))
  | none => conn

end QuicConnection

/-! ## Responses -/

structure H3Response where
  status : ℕ
  headers : String → Option String
  body : List UInt8

/-- `str::parse::<u16>`. -/
def parseU16 (s : String) : Option ℕ :=
  let digits : List Char :=
    match s.toList with
    | '+' :: digits => digits
    | digits => digits
  let value := digits.foldl (fun n c => 10 * n + (c.toNat - 48)) 0
  if digits ≠ [] ∧ digits.all Char.isDigit ∧ value < 2 ^ 16 then some value else none

/-- One decoded field: the status, or a header under its name in lower case. -/
def H3Response.addField (response : H3Response) (field : Header) : H3Response :=
  if field.1 = ":status" then { response with status := (parseU16 field.2).getD 200 }
  else
    let name := field.1.map Char.toLower
    { response with
      headers := fun other => if other = name then some field.2 else response.headers other }

section Response

variable (lossy : List UInt8 → String)

/-- The response with these header blocks and this body. -/
def respond (headerData bodyData : List UInt8) : Option H3Response :=
  (qpackDecode lossy headerData).map fun fields =>
    fields.foldl H3Response.addField ⟨200, fun _ => none, bodyData⟩

/-- The response, if the stream is there and has ended; its stream is removed then. -/
def QuicConnection.takeResponse (conn : QuicConnection) (streamId : ℕ) :
    Option (Option H3Response × QuicConnection) :=
  match conn.streams streamId with
  | none => some (none, conn)
  | some buf =>
    if !buf.fin then some (none, conn)
    else do
      let response ← respond lossy buf.headerData buf.bodyData
      some (some response, conn.put streamId none)

end Response

/-- The chunks of a stream, the last one with the end of the stream. -/
def QuicConnection.ingestChunks (conn : QuicConnection) (streamId : ℕ)
    (front : List (List UInt8)) (last : List UInt8) : QuicConnection :=
  (front.foldl (fun conn chunk => conn.ingestStreamData streamId chunk false) conn).ingestStreamData
    streamId last true

/-! ## Frames -/

/-- An integer in one of the four sizes that it fits. -/
structure Varint where
  value : ℕ
  size : Fin 4
  fits : value < 64 * 256 ^ (2 ^ size.val - 1)

/-- The size in the two top bits, then the value, most significant byte first. -/
def Varint.encode (v : Varint) : List UInt8 :=
  let more := 2 ^ v.size.val - 1
  UInt8.ofNat (64 * v.size.val + v.value / 256 ^ more) :: beBytesOn more v.value

/-- A well-formed frame: type, length and payload. -/
structure H3Frame where
  ftype : Varint
  length : Varint
  payload : List UInt8
  whole : length.value = payload.length

def H3Frame.encode (f : H3Frame) : List UInt8 := f.ftype.encode ++ f.length.encode ++ f.payload

def wire (frames : List H3Frame) : List UInt8 := frames.flatMap H3Frame.encode

/-- The payloads of the frames of one type, one after the other. -/
def payloads (ftype : ℕ) (frames : List H3Frame) : List UInt8 :=
  (frames.filter fun f => f.ftype.value = ftype).flatMap H3Frame.payload

/-- Every cut between two chunks is between two frames. -/
def AtBoundaries (frames : List H3Frame) (chunks : List (List UInt8)) : Prop :=
  ∃ groups : List (List H3Frame), groups.flatten = frames ∧ chunks = groups.map wire

/-! ## Parsing of whole frames -/

theorem decodeVarint_encode (v : Varint) (rest : List UInt8) :
    decodeVarint (v.encode ++ rest) = some (v.value, rest) := by
  obtain ⟨value, size, fits⟩ := v
  simp only [Varint.encode, cons_append, decodeVarint]
  generalize more : 2 ^ size.val - 1 = n at fits
  have high : value / 256 ^ n < 64 := Nat.div_lt_of_lt_mul (by rwa [mul_comm])
  have split : value / 256 ^ n * 256 ^ n + value % 256 ^ n = value := Nat.div_add_mod' value _
  generalize value / 256 ^ n = top at high split
  have first : (UInt8.ofNat (64 * size.val + top)).toNat = 64 * size.val + top :=
    UInt8.toNat_ofNat_of_lt' (by simp [UInt8.size]; omega)
  generalize UInt8.ofNat (64 * size.val + top) = b at first
  have sizeBits : (b >>> 6).toNat = size.val := by
    simp
    omega
  have valueBits : (b &&& 0x3F).toNat = top := by
    have mask : (0x3F : UInt8).toNat = 2 ^ 6 - 1 := rfl
    rw [UInt8.toNat_and, mask, Nat.and_two_pow_sub_one_eq_mod]
    omega
  rw [sizeBits, more, if_neg (by simp), take_left' (length_beBytesOn n value),
    drop_left' (length_beBytesOn n value), ofBeBytes_cons, valueBits, length_beBytesOn,
    ofBeBytes_beBytesOn_mod, split]

theorem decodeVarint_shortens {data rest : List UInt8} {value : ℕ}
    (decoded : decodeVarint data = some (value, rest)) : rest.length < data.length := by
  cases data with
  | nil => cases decoded
  | cons b data =>
    simp only [decodeVarint] at decoded
    split_ifs at decoded
    cases decoded
    simp only [length_drop, length_cons]
    omega

@[simp] theorem parseFrames_nil (fuel : ℕ) (buf : H3StreamBuf) : parseFrames fuel buf [] = buf := by
  cases fuel <;> rfl

theorem parseFrames_fuel {fuel fuel' : ℕ} {buf : H3StreamBuf} {data : List UInt8}
    (enough : data.length ≤ fuel) (enough' : data.length ≤ fuel') :
    parseFrames fuel buf data = parseFrames fuel' buf data := by
  induction fuel generalizing fuel' buf data with
  | zero =>
    obtain rfl : data = [] := length_eq_zero_iff.mp (Nat.le_zero.mp enough)
    rw [parseFrames_nil, parseFrames_nil]
  | succ fuel ih =>
    cases fuel' with
    | zero =>
      obtain rfl : data = [] := length_eq_zero_iff.mp (Nat.le_zero.mp enough')
      rw [parseFrames_nil, parseFrames_nil]
    | succ fuel' =>
      simp only [parseFrames]
      cases first : decodeVarint data with
      | none => rfl
      | some parsed =>
        obtain ⟨ftype, rest⟩ := parsed
        cases second : decodeVarint rest with
        | none => simp [second]
        | some parsed =>
          have shorter := decodeVarint_shortens first
          have shorter' := decodeVarint_shortens second
          simp only [second]
          refine ih ?_ ?_ <;>
          · rw [length_drop]
            omega

variable (buf : H3StreamBuf)

theorem parseFrames_encode (f : H3Frame) (rest : List UInt8) :
    parseFrames (f.encode ++ rest).length buf (f.encode ++ rest) =
      parseFrames rest.length (buf.extend f.ftype.value f.payload) rest := by
  have bytes : f.encode ++ rest = f.ftype.encode ++ (f.length.encode ++ (f.payload ++ rest)) := by
    simp [H3Frame.encode]
  have first := decodeVarint_encode f.ftype (f.length.encode ++ (f.payload ++ rest))
  have second := decodeVarint_encode f.length (f.payload ++ rest)
  rw [← bytes] at first
  have longer := decodeVarint_shortens first
  obtain ⟨fuel, length⟩ : ∃ fuel, (f.encode ++ rest).length = fuel + 1 :=
    Nat.exists_eq_add_one_of_ne_zero (by omega)
  rw [length] at longer ⊢
  rw [parseFrames, first]
  simp only [second, f.whole, take_left, drop_left]
  refine parseFrames_fuel ?_ le_rfl
  simp only [length_append] at longer
  omega

/-- What a sequence of frames adds to a stream. -/
def H3StreamBuf.extendAll (buf : H3StreamBuf) (frames : List H3Frame) : H3StreamBuf :=
  frames.foldl (fun buf f => buf.extend f.ftype.value f.payload) buf

theorem parseFrames_wire (frames : List H3Frame) :
    parseFrames (wire frames).length buf (wire frames) = buf.extendAll frames := by
  induction frames generalizing buf with
  | nil => rfl
  | cons f frames ih => rw [wire, flatMap_cons, parseFrames_encode]; exact ih _

/-- The payloads end up in the two buffers, whatever is between them. -/
theorem extendAll_eq (frames : List H3Frame) : buf.extendAll frames = { buf with
        headerData := buf.headerData ++ payloads 0x01 frames
        bodyData := buf.bodyData ++ payloads 0x00 frames } := by
  induction frames generalizing buf with
  | nil => simp [H3StreamBuf.extendAll, payloads]
  | cons f frames ih =>
    have step : buf.extendAll (f :: frames) =
        (buf.extend f.ftype.value f.payload).extendAll frames := rfl
    rw [step, ih]
    unfold H3StreamBuf.extend payloads
    by_cases headers : f.ftype.value = 0x01
    · simp [headers]
    by_cases data : f.ftype.value = 0x00
    · simp [data]
    · simp [headers, data]

/-! ## Chunks -/

variable {conn : QuicConnection} {streamId : ℕ}

theorem ingestStreamData_put (data : List UInt8) (fin : Bool) :
    (conn.put streamId (some buf)).ingestStreamData streamId data fin =
      conn.put streamId (some (buf.ingest data fin)) := by
  simp only [QuicConnection.ingestStreamData, QuicConnection.put, if_true]
  congr 1
  funext id
  split_ifs <;> rfl

theorem ingest_wire (frames : List H3Frame) :
    buf.ingest (wire frames) false = buf.extendAll frames ∧
      buf.ingest (wire frames) true = { buf.extendAll frames with fin := true } := by
  simp [H3StreamBuf.ingest, parseFrames_wire]

theorem foldl_ingest_wire (groups : List (List H3Frame)) :
    (groups.map wire).foldl (fun conn chunk => conn.ingestStreamData streamId chunk false)
        (conn.put streamId (some buf)) =
      conn.put streamId (some (buf.extendAll groups.flatten)) := by
  induction groups generalizing buf with
  | nil => rfl
  | cons group groups ih =>
    rw [map_cons, foldl_cons, ingestStreamData_put, (ingest_wire buf group).1, ih]
    simp [H3StreamBuf.extendAll]

theorem ingestChunks_of_boundaries {frames : List H3Frame} {front : List (List UInt8)}
    {last : List UInt8} (boundaries : AtBoundaries frames (front ++ [last])) :
    (conn.openStream streamId).ingestChunks streamId front last =
      conn.put streamId (some ⟨payloads 0x01 frames, payloads 0x00 frames, true⟩) := by
  obtain ⟨groups, rfl, chunks⟩ := boundaries
  obtain ⟨before, final, rfl, rfl, single⟩ := append_eq_map_iff.mp chunks
  obtain ⟨group, rfl, rfl⟩ := map_eq_singleton_iff.mp single
  rw [QuicConnection.ingestChunks, QuicConnection.openStream, foldl_ingest_wire,
    ingestStreamData_put, (ingest_wire _ group).2]
  have all : H3StreamBuf.extendAll ⟨[], [], false⟩ (before ++ [group]).flatten =
      (H3StreamBuf.extendAll ⟨[], [], false⟩ before.flatten).extendAll group := by
    simp [H3StreamBuf.extendAll]
  rw [← all, extendAll_eq]
  rfl

/-- If every cut is between two frames, the response is the one that a single call gives: the
decoding of the header blocks, and the data. -/
theorem takeResponse_ingestChunks (lossy : List UInt8 → String) (conn : QuicConnection)
    (streamId : ℕ) {frames : List H3Frame} {front : List (List UInt8)} {last : List UInt8}
    (boundaries : AtBoundaries frames (front ++ [last])) :
    ((conn.openStream streamId).ingestChunks streamId front last).takeResponse lossy streamId =
        ((conn.openStream streamId).ingestStreamData streamId (wire frames) true).takeResponse
          lossy streamId ∧
      (((conn.openStream streamId).ingestChunks streamId front last).takeResponse
          lossy streamId).map Prod.fst =
        (respond lossy (payloads 0x01 frames) (payloads 0x00 frames)).map some := by
  have chunks := @ingestChunks_of_boundaries conn streamId frames front last boundaries
  have single := @ingestChunks_of_boundaries conn streamId frames [] (wire frames)
    ⟨[frames], by simp, rfl⟩
  constructor
  · rw [chunks, ← single]
    rfl
  · rw [chunks]
    simp only [QuicConnection.takeResponse, QuicConnection.put, if_true]
    cases respond lossy (payloads 0x01 frames) (payloads 0x00 frames) <;> rfl

/-- A frame whose type and length take one byte each. -/
def shortFrame (ftype : Fin 64) (payload : List UInt8) (short : payload.length < 64) : H3Frame where
  ftype := ⟨ftype, ⟨0, Nat.succ_pos 3⟩, ftype.isLt⟩
  length := ⟨payload.length, ⟨0, Nat.succ_pos 3⟩, short⟩
  payload
  whole := rfl

/-- A header block and some data in two chunks. -/
theorem takeResponse_two_chunks :
    AtBoundaries [shortFrame 1 [0, 0, 0xD9] (by decide), shortFrame 0 [7] (by decide)]
        ([[1, 3, 0, 0, 0xD9]] ++ [[0, 1, 7]]) ∧
      (((QuicConnection.openStream ⟨fun _ => none⟩ 0).ingestChunks 0 [[1, 3, 0, 0, 0xD9]]
          [0, 1, 7]).takeResponse (fun _ => "") 0).map Prod.fst =
        (respond (fun _ => "") [0, 0, 0xD9] [7]).map some := by
  have boundaries : AtBoundaries
      [shortFrame 1 [0, 0, 0xD9] (by decide), shortFrame 0 [7] (by decide)]
      ([[1, 3, 0, 0, 0xD9]] ++ [[0, 1, 7]]) :=
    ⟨[[shortFrame 1 [0, 0, 0xD9] (by decide)], [shortFrame 0 [7] (by decide)]], rfl,
      by decide +kernel⟩
  exact ⟨boundaries, (takeResponse_ingestChunks (fun _ => "") ⟨fun _ => none⟩ 0 boundaries).2⟩

/-- The end of a frame that is cut is lost. -/
theorem not_takeResponse_cut :
    ¬ ∀ (lossy : List UInt8 → String) (conn : QuicConnection) (streamId : ℕ)
        (frames : List H3Frame) (front : List (List UInt8)) (last : List UInt8),
      (front ++ [last]).flatten = wire frames →
      ((conn.openStream streamId).ingestChunks streamId front last).takeResponse lossy streamId =
        ((conn.openStream streamId).ingestStreamData streamId (wire frames) true).takeResponse
          lossy streamId := by
  intro all
  have same := all (fun _ => "") ⟨fun _ => none⟩ 0 [shortFrame 0 [7, 8] (by decide)] [[0, 2, 7]] [8]
    (by decide +kernel)
  have bodies := congrArg (fun result => result.map fun pair => pair.1.map H3Response.body) same
  exact absurd bodies (by decide +kernel)

/-- A cut inside a frame may still do no harm: the rest of this one, with the empty header block
after it, reads as a frame with the byte that was to come. -/
example : (((QuicConnection.openStream ⟨fun _ => none⟩ 0).ingestChunks 0 [[0, 2, 7]]
    [0, 1, 0]).streams 0) = ((QuicConnection.openStream ⟨fun _ => none⟩ 0).ingestStreamData 0
      (wire [shortFrame 0 [7, 0] (by decide), shortFrame 1 [] (by decide)]) true).streams 0 := by
  decide +kernel

end SmartOs.Net.Quic
