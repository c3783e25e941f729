/-
# WebSocket frames

Encoding and decoding of frames, and the client that polls a TCP connection for them and
reassembles messages. What is not a whole frame yet stays in the receive buffer of the client.

What `String::from_utf8_lossy` makes of bytes is a parameter.
-/

import SmartOs.CS.Blocks
import SmartOs.CS.Framing
import SmartOs.Net.Ipv4
import SmartOs.Net.Tcp

namespace SmartOs.Net.WebSocket

open CS Math

/-! ## Frames -/

inductive Opcode where
  | continuation
  | text
  | binary
  | close
  | ping
  | pong
  | reserved (n : UInt8)
  deriving DecidableEq

namespace Opcode

def fromU8 (v : UInt8) : Opcode :=
  match v &&& 0x0F with
  | 0x0 => .continuation
  | 0x1 => .text
  | 0x2 => .binary
  | 0x8 => .close
  | 0x9 => .ping
  | 0xA => .pong
  | n => .reserved n

def toU8 : Opcode → UInt8
  | .continuation => 0x0
  | .text => 0x1
  | .binary => 0x2
  | .close => 0x8
  | .ping => 0x9
  | .pong => 0xA
  | .reserved n => n

/-- The opcode of a number of four bits. -/
def FourBit (opcode : Opcode) : Prop := ∃ v < 16, opcode = fromU8 v

end Opcode

structure WsFrame where
  fin : Bool
  opcode : Opcode
  payload : List UInt8
  deriving DecidableEq

def maskKey (seed : UInt32) : Vector UInt8 4 :=
  let v := seed * 1664525 + 1013904223
  #v[(v >>> 24).toUInt8, (v >>> 16).toUInt8, (v >>> 8).toUInt8, v.toUInt8]

/-- Every byte combined with the byte of the key at its place, modulo four. -/
def applyMask (key : Vector UInt8 4) (bytes : List UInt8) : List UInt8 :=
  bytes.mapIdx fun i b => b ^^^ key.get (Fin.ofNat 4 i)

namespace WsFrame

/-- The second byte and the bytes of a longer length. -/
def lengthBytes (maskBit : UInt8) (len : ℕ) : List UInt8 :=
  if len < 126 then [maskBit ||| UInt8.ofNat len]
  else if len < 65536 then [maskBit ||| 126, UInt8.ofNat (len >>> 8), UInt8.ofNat len]
  else (maskBit ||| 127) :: (List.range 8).reverse.map fun i => UInt8.ofNat (len >>> (i * 8))

def encode (frame : WsFrame) (mask : Bool) : List UInt8 :=
  let finBit : UInt8 := if frame.fin then 0x80 else 0x00
  let maskBit : UInt8 := if mask then 0x80 else 0x00
  let len := frame.payload.length
  let key := maskKey (UInt32.ofNat len)
  (finBit ||| frame.opcode.toU8) :: lengthBytes maskBit len ++
    (if mask then key.toList ++ applyMask key frame.payload else frame.payload)

/-- The length of the payload and where it has been read to. -/
def decodeLength (data : List UInt8) (rawLen : ℕ) : Option (ℕ × ℕ) :=
  if rawLen = 126 then
    if data.length < 2 + 2 then none else some (ofBeBytes ((data.drop 2).take 2), 2 + 2)
  else if rawLen = 127 then
    if data.length < 2 + 8 then none else some (ofBeBytes ((data.drop 2).take 8), 2 + 8)
  else some (rawLen, 2)

/-- The key at `pos`, if there is one, and where it has been read to. -/
def decodeMaskKey (data : List UInt8) (masked : Bool) (pos : ℕ) :
    Option (Option (Vector UInt8 4) × ℕ) :=
  if masked then
    if data.length < pos + 4 then none
    else
      some (some #v[data.getD pos 0, data.getD (pos + 1) 0, data.getD (pos + 2) 0,
        data.getD (pos + 3) 0], pos + 4)
  else some (none, pos)

/-- The payload from `pos` on. The end of it is a 64-bit sum; if that comes round, the slice ends
before it begins, and the code panics. -/
def decodePayload (data : List UInt8) (fin : Bool) (opcode : Opcode)
    (maskKey : Option (Vector UInt8 4)) (pos payloadLen : ℕ) : Option (Option (WsFrame × ℕ)) :=
  let stop := (pos + payloadLen) % 2 ^ 64
  if data.length < stop then some none
  else if stop < pos then none
  else
    let raw := (data.take stop).drop pos
    let payload :=
      match maskKey with
      | some key => applyMask key raw
      | none => raw
    some (some (⟨fin, opcode, payload⟩, stop))

def decode (data : List UInt8) : Option (Option (WsFrame × ℕ)) :=
  if data.length < 2 then some none
  else
    let b0 := data.getD 0 0
    let b1 := data.getD 1 0
    let fin := b0 &&& 0x80 != 0
    let opcode := Opcode.fromU8 b0
    let masked := b1 &&& 0x80 != 0
    let rawLen := (b1 &&& 0x7F).toNat
    match decodeLength data rawLen with
    | none => some none
    | some (payloadLen, pos) =>
      match decodeMaskKey data masked pos with
      | none => some none
      | some (maskKey, pos) => decodePayload data fin opcode maskKey pos payloadLen

variable {data : List UInt8} {pos payloadLen : ℕ} {maskKey : Option (Vector UInt8 4)}

theorem decodePayload_consumes {fin : Bool} {opcode : Opcode}
    {n : ℕ} {frame : WsFrame}
    (decoded : decodePayload data fin opcode maskKey pos payloadLen = some (some (frame, n))) :
    pos ≤ n ∧ n ≤ data.length := by
  unfold decodePayload at decoded
  dsimp only at decoded
  split at decoded
  · cases decoded
  split at decoded
  · cases decoded
  · cases decoded
    omega

theorem decodeLength_le {rawLen : ℕ}
    (decoded : decodeLength data rawLen = some (payloadLen, pos)) : 2 ≤ pos := by
  unfold decodeLength at decoded
  grind

theorem decodeMaskKey_le {masked : Bool} {next : ℕ}
    (decoded : decodeMaskKey data masked pos = some (maskKey, next)) : pos ≤ next := by
  unfold decodeMaskKey at decoded
  grind

def decoder : Decoder UInt8 WsFrame where
  decode := decode
  empty := rfl
  consumes := by
    intro data frame n decoded
    unfold decode at decoded
    dsimp only at decoded
    split at decoded
    · cases decoded
    split at decoded
    · cases decoded
    rename_i length
    split at decoded
    · cases decoded
    rename_i key
    have payload := decodePayload_consumes decoded
    have := decodeLength_le length
    have := decodeMaskKey_le key
    omega

end WsFrame

/-! ## The client -/

inductive CloseCode where
  | normal
  | goingAway
  | protocolError
  | unsupportedData
  | noStatus
  | abnormalClose
  | invalidData
  | policyViolation
  | messageTooBig
  | mandatoryExt
  | internalError
  | tlsHandshake
  deriving DecidableEq

def CloseCode.fromU16 (v : UInt16) : CloseCode :=
  match v with
  | 1000 => .normal
  | 1001 => .goingAway
  | 1002 => .protocolError
  | 1003 => .unsupportedData
  | 1007 => .invalidData
  | 1008 => .policyViolation
  | 1009 => .messageTooBig
  | 1011 => .internalError
  | _ => .protocolError

inductive WsMessage where
  | text (text : String)
  | binary (bytes : List UInt8)
  | ping (bytes : List UInt8)
  | pong (bytes : List UInt8)
  | close (code : CloseCode) (reason : String)
  deriving DecidableEq

inductive WsState where
  | connecting
  | opened
  | closing
  | closed
  deriving DecidableEq

/-- A client without its receive buffer. `sent` is what it has handed to TCP, in order. -/
structure Session where
  state : WsState
  fragBuf : List UInt8
  fragOpcode : Opcode
  messages : List WsMessage
  sendSeq : UInt32
  sent : List (List UInt8)

structure Client where
  session : Session
  recvBuf : List UInt8

section Client

variable (fromUtf8Lossy : List UInt8 → String)

def parseClosePayload (data : List UInt8) : CloseCode × String :=
  if data.length < 2 then (.noStatus, "")
  else (CloseCode.fromU16 (readBe16 data 0), fromUtf8Lossy (data.drop 2))

variable (s : Session) (opcode : Opcode)

namespace Session

/-- The result of a send is not looked at by the caller. -/
def sendMsg (payload : List UInt8) : Session :=
  if s.state ≠ .opened ∧ opcode ≠ .close then s
  else
    { s with
      sendSeq := s.sendSeq + 1
      sent := s.sent ++ [WsFrame.encode ⟨true, opcode, payload⟩ true] }

/-- The frames of a message in pieces. -/
def fragments (pieces : List (List UInt8)) : List WsFrame :=
  pieces.mapIdx fun i piece =>
    ⟨i == pieces.length - 1, if i = 0 then opcode else .continuation, piece⟩

/-- The frames go to TCP, whether or not the connection is open. Chunks of no bytes are a panic. -/
def sendFragmented (data : List UInt8) (chunkSize : ℕ) : Option Session :=
  if data = [] then some (s.sendMsg opcode data)
  else if chunkSize = 0 then none
  else
    some { s with
      sent := s.sent ++ (fragments opcode (chunks chunkSize data)).map (·.encode true) }

def push (message : WsMessage) : Session :=
  { s with messages := s.messages ++ [message] }

/-- A whole message of a data opcode. -/
def dataMessage (payload : List UInt8) : WsMessage :=
  if opcode = .text then .text (fromUtf8Lossy payload) else .binary payload

def handleFrame (frame : WsFrame) : Session :=
  match frame.opcode with
  | .ping => (s.sendMsg .pong frame.payload).push (.ping frame.payload)
  | .pong => s.push (.pong frame.payload)
  | .close =>
    let (code, reason) := parseClosePayload fromUtf8Lossy frame.payload
    let s := if s.state = .opened then s.sendMsg .close frame.payload else s
    { s with state := .closed }.push (.close code reason)
  | .text | .binary =>
    if frame.fin then s.push (dataMessage fromUtf8Lossy frame.opcode frame.payload)
    else { s with fragOpcode := frame.opcode, fragBuf := frame.payload }
  | .continuation =>
    let s := { s with fragBuf := s.fragBuf ++ frame.payload }
    if frame.fin then
      { s with fragBuf := [] }.push (dataMessage fromUtf8Lossy s.fragOpcode s.fragBuf)
    else s
  | .reserved _ => s

end Session

/-- The loop that takes everything out of the TCP receive buffer, 4096 bytes at a time. -/
def recvAll (tcb : Tcp.Tcb) (recvBuf : List UInt8) : List UInt8 × Tcp.Tcb :=
  match _ : tcb.recv 4096 with
  | .error _ => (recvBuf, tcb)
  | .ok (bytes, last) => if bytes = [] then (recvBuf, last) else recvAll last (recvBuf ++ bytes)
termination_by tcb.recvBuf.length
decreasing_by
  rename_i received some
  obtain ⟨rest, whole, rfl⟩ := Tcp.Tcb.recv_ok received
  have := List.length_pos_of_ne_nil some
  rw [whole, List.length_append]
  dsimp only
  omega

/-- There is no result where the code panics. -/
def poll (ws : Client) (tcb : Tcp.Tcb) : Option (Client × Tcp.Tcb) :=
  if ws.session.state = .closed then some (ws, tcb)
  else
    let (recvBuf, tcb) := recvAll tcb ws.recvBuf
    match WsFrame.decoder.drain (Session.handleFrame fromUtf8Lossy) ws.session recvBuf with
    | none => none
    | some (session, recvBuf) => some (⟨session, recvBuf⟩, tcb)

end Client

end SmartOs.Net.WebSocket
