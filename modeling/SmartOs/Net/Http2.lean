/-
# HTTP/2 connections

The client side of an HTTP/2 connection: frames on the wire, the connection set-up, requests, and
what the client does with each frame it receives. What a call writes is collected in `outbox`; the
transport takes everything.

The two loops that read frames, the one of `connect` and the one of `recv_response`, are split into
their iterations. The flags of the first are kept with the connection. Windows are integers, wrapped
to 32 bits after each operation.
-/

import SmartOs.Net.Hpack
import SmartOs.Net.Ipv4

open SmartOs.Math
open SmartOs.Net.Hpack (H2Error Header HpackDecoder encodeHeaders)

namespace SmartOs.Net.Http2

/-! ## Frames -/

inductive FrameType where
  | data | headers | priority | rstStream | settings | pushPromise | ping | goAway | windowUpdate
  | continuation | unknown
  deriving DecidableEq

/-- The meaning of the type byte. -/
def FrameType.ofByte (ftype : UInt8) : FrameType :=
  match ftype.toNat with
  | 0x0 => .data
  | 0x1 => .headers
  | 0x2 => .priority
  | 0x3 => .rstStream
  | 0x4 => .settings
  | 0x5 => .pushPromise
  | 0x6 => .ping
  | 0x7 => .goAway
  | 0x8 => .windowUpdate
  | 0x9 => .continuation
  | _ => .unknown

structure Frame where
  ftype : UInt8
  flags : UInt8
  streamId : UInt32
  payload : List UInt8
  deriving DecidableEq

def Frame.kind (f : Frame) : FrameType := FrameType.ofByte f.ftype

def flagEndStream : UInt8 := 0x01
def flagEndHeaders : UInt8 := 0x04
def flagPadded : UInt8 := 0x08
def flagAck : UInt8 := 0x01

def Frame.has (f : Frame) (flag : UInt8) : Bool := f.flags &&& flag ≠ 0

/-- The 24 low bits of the length, type, flags, and the stream without its reserved bit. -/
def encodeFrame (f : Frame) : List UInt8 :=
  beBytesOn 3 f.payload.length ++ [f.ftype, f.flags] ++ be32 (f.streamId &&& 0x7FFFFFFF) ++
    f.payload

/-- A frame from the wire, and what comes after it. -/
def recvFrame (peerMaxFrameSize : UInt32) (wire : List UInt8) :
    Except H2Error (Frame × List UInt8) :=
  let header := wire.take 9
  if header.length < 9 then .error .io
  else
    let length := ofBeBytes (header.take 3)
    let rest := wire.drop 9
    if length > peerMaxFrameSize.toNat then .error (.protocol "frame too large")
    else if rest.length < length then .error .io
    else
      .ok (⟨header.getD 3 0, header.getD 4 0, readBe32 header 5 &&& 0x7FFFFFFF, rest.take length⟩,
        rest.drop length)

def stripPadding (payload : List UInt8) (flags : UInt8) : List UInt8 :=
  if flags &&& flagPadded = 0 then payload
  else
    match payload with
    | [] => []
    | padLen :: _ =>
      let dataEnd := payload.length - padLen.toNat
      if dataEnd < 1 then [] else (payload.take dataEnd).drop 1

/-- The settings of a payload, without a last one that is cut short. -/
def settingsOf : List UInt8 → List (UInt16 × UInt32)
  | a :: b :: c :: d :: e :: f :: rest =>
    (readBe16 [a, b] 0, readBe32 [c, d, e, f] 0) :: settingsOf rest
  | _ => []

def pushSetting (id : UInt16) (val : UInt32) : List UInt8 := be16 id ++ be32 val

def settingsHeaderTableSize : UInt16 := 0x1
def settingsInitialWindowSize : UInt16 := 0x4
def settingsMaxFrameSize : UInt16 := 0x5

/-- The increment of a `WINDOW_UPDATE` payload of at least four bytes. -/
def incrementOf (payload : List UInt8) : UInt32 := readBe32 payload 0 &&& 0x7FFFFFFF

/-! ## The connection -/

/-- Wrapping of `i32`. -/
def wrap32 (x : ℤ) : ℤ := x.bmod (2 ^ 32)

inductive StreamState where
  | idle | open | halfClosedLocal | halfClosedRemote | closed
  deriving DecidableEq

structure H2Stream where
  id : UInt32
  state : StreamState
  responseHeaders : List Header
  responseBody : List UInt8
  endStream : Bool
  localWindow : ℤ
  remoteWindow : ℤ
  headerBuf : List UInt8
  headersDone : Bool

def H2Stream.new (id : UInt32) (initialWindow : ℤ) : H2Stream where
  id
  state := .idle
  responseHeaders := []
  responseBody := []
  endStream := false
  localWindow := 65535
  remoteWindow := initialWindow
  headerBuf := []
  headersDone := false

structure Http2Connection where
  streams : UInt32 → Option H2Stream
  nextStreamId : UInt32
  hpackDecoder : HpackDecoder
  localWindow : ℤ
  remoteWindow : ℤ
  peerMaxFrameSize : UInt32
  peerHeaderTable : UInt32
  peerInitialWindow : UInt32
  connected : Bool
  /-- `got_settings` of `connect` -/
  gotSettings : Bool
  /-- `got_ack` of `connect` -/
  gotAck : Bool
  /-- the frames written by the current call -/
  outbox : List Frame

/-- A result, and the connection as the call left it. -/
abbrev Outcome (α : Type) := Except H2Error α × Http2Connection

namespace Http2Connection

variable (c : Http2Connection) (id : UInt32) (frame : Frame)

def new : Http2Connection where
  streams := fun _ => none
  nextStreamId := 1
  hpackDecoder := .new
  localWindow := 65535
  remoteWindow := 65535
  peerMaxFrameSize := 16384
  peerHeaderTable := 4096
  peerInitialWindow := 65535
  connected := false
  gotSettings := false
  gotAck := false
  outbox := []

def sendFrame (ftype flags : UInt8) (streamId : UInt32) (payload : List UInt8) : Http2Connection :=
  { c with outbox := c.outbox ++ [⟨ftype, flags, streamId, payload⟩] }

def putStream (stream : H2Stream) : Http2Connection :=
  { c with streams := fun i => if i = id then some stream else c.streams i }

/-- Changes a stream if it is there. -/
def modifyStream (f : H2Stream → H2Stream) : Http2Connection :=
  match c.streams id with
  | some stream => c.putStream id (f stream)
  | none => c

/-! ## Settings and windows -/

def applySetting (setting : UInt16 × UInt32) : Http2Connection :=
  if setting.1 = settingsHeaderTableSize then { c with peerHeaderTable := setting.2 }
  else if setting.1 = settingsInitialWindowSize then { c with peerInitialWindow := setting.2 }
  else if setting.1 = settingsMaxFrameSize then { c with peerMaxFrameSize := setting.2 }
  else c

def applySettings (payload : List UInt8) : Http2Connection :=
  (settingsOf payload).foldl applySetting c

def handleWindowUpdate : Outcome Unit :=
  if frame.payload.length < 4 then (.error (.protocol "short WINDOW_UPDATE"), c)
  else
    let increment : ℤ := (incrementOf frame.payload).toNat
    if frame.streamId = 0 then
      (.ok (), { c with remoteWindow := wrap32 (c.remoteWindow + increment) })
    else
      (.ok (), c.modifyStream frame.streamId fun s =>
        { s with remoteWindow := wrap32 (s.remoteWindow + increment) })

/-- The client preface is not a frame; the settings are. -/
def connect : Http2Connection :=
  let settings := pushSetting settingsInitialWindowSize 65535 ++
    pushSetting settingsMaxFrameSize 16384
  { c.sendFrame 0x4 0 0 settings with gotSettings := false, gotAck := false }

/-- One iteration of the loop in `connect`, and the end of the loop. -/
def connectFrame : Outcome Unit :=
  let (result, c) :=
    match frame.kind with
    | .settings =>
      if frame.has flagAck then ((.ok () : Except H2Error Unit), { c with gotAck := true })
      else
        let c := { c.applySettings frame.payload with gotSettings := true }
        (.ok (), c.sendFrame 0x4 flagAck 0 [])
    | .windowUpdate => c.handleWindowUpdate frame
    | _ => (.ok (), c)
  match result with
  | .error e => (.error e, c)
  | .ok () => (.ok (), if c.gotSettings && c.gotAck then { c with connected := true } else c)

/-! ## Requests -/

/-- The header block of a request. -/
def requestHeaders (method path authority scheme : String) (extraHeaders : List Header)
    (body : Option (List UInt8)) : List UInt8 :=
  encodeHeaders ([(":method", method), (":path", path), (":scheme", scheme),
      (":authority", authority), ("user-agent", "SmartOS/0.12 http2")] ++ extraHeaders ++
    (body.map fun b => ("content-length", toString b.length)).toList)

/-- Sends the header block on a new stream and registers the stream. -/
def openStream (hpack : List UInt8) (hasBody : Bool) : Http2Connection :=
  let streamId := c.nextStreamId
  let c := { c with nextStreamId := c.nextStreamId + 2 } -- client streams are odd
  let flags := flagEndHeaders ||| if hasBody then 0 else flagEndStream
  let c := c.sendFrame 0x1 flags streamId hpack
  c.putStream streamId
    { H2Stream.new streamId (wrap32 c.peerInitialWindow.toNat) with
      state := if hasBody then .open else .halfClosedLocal }

def sendRequest (method path authority scheme : String) (extraHeaders : List Header) (body : Option
    (List UInt8)) : Outcome UInt32 :=
  if !c.connected then (.error .closed, c)
  else
    let streamId := c.nextStreamId
    let hpack := requestHeaders method path authority scheme extraHeaders body
    let c := c.openStream hpack (body.any (· ≠ []))
    match body with
    | some data =>
      if data ≠ [] then
        (.ok streamId, (c.sendFrame 0x0 flagEndStream streamId data).modifyStream streamId fun s =>
          { s with state := .halfClosedLocal })
      else (.ok streamId, c)
    | none => (.ok streamId, c)

/-! ## Received frames -/

/-- Collects a part of a header block, and decodes the block after the last part. -/
def takeHeaders (payload : List UInt8) (endHeaders : Bool) : Outcome Unit :=
  match c.streams id with
  | none => (.ok (), c)
  | some stream =>
    let buf := stream.headerBuf ++ payload
    if endHeaders then
      match HpackDecoder.decode buf c.hpackDecoder with
      | .ok decoded decoder =>
        (.ok (), { c with hpackDecoder := decoder }.putStream id
          { stream with headerBuf := [], responseHeaders := decoded, headersDone := true })
      | .error e decoder =>
        (.error e, { c with hpackDecoder := decoder }.putStream id { stream with headerBuf := [] })
    else (.ok (), c.putStream id { stream with headerBuf := buf })

def endStream : Http2Connection :=
  c.modifyStream id fun s => { s with endStream := true, state := .halfClosedRemote }

/-- The increment that brings a window up again, if it is low. -/
def refill (window : ℤ) : Option ℤ :=
  if window < 32768 then some (wrap32 (65535 - window)) else none

def sendWindowUpdate (increment : ℤ) : Http2Connection :=
  c.sendFrame 0x8 0 id (be32 (UInt32.ofNat (increment % 2 ^ 32).toNat))

def refillConnection : Http2Connection :=
  match refill c.localWindow with
  | some increment =>
    { c with localWindow := wrap32 (c.localWindow + increment) }.sendWindowUpdate 0 increment
  | none => c

def refillStream : Http2Connection :=
  match c.streams id with
  | some stream =>
    match refill stream.localWindow with
    | some increment =>
      (c.sendWindowUpdate id increment).modifyStream id fun s =>
        { s with localWindow := wrap32 (s.localWindow + increment) }
    | none => c
  | none => c

/-- Adds the data to its stream, if that is open, and lowers the windows. -/
def takeData : Http2Connection :=
  let data := stripPadding frame.payload frame.flags
  let c := c.modifyStream frame.streamId fun s =>
    { s with
      responseBody := s.responseBody ++ data
      localWindow := wrap32 (s.localWindow - wrap32 data.length) }
  let c := if frame.has flagEndStream then c.endStream frame.streamId else c
  { c with localWindow := wrap32 (c.localWindow - wrap32 data.length) }

def processData : Http2Connection :=
  (c.takeData frame).refillConnection.refillStream frame.streamId

def processFrame : Outcome Unit :=
  match frame.kind with
  | .headers =>
    match c.takeHeaders frame.streamId (stripPadding frame.payload frame.flags)
        (frame.has flagEndHeaders) with
    | (.error e, c) => (.error e, c)
    | (.ok (), c) => (.ok (), if frame.has flagEndStream then c.endStream frame.streamId else c)
  | .continuation => c.takeHeaders frame.streamId frame.payload (frame.has flagEndHeaders)
  | .data => (.ok (), c.processData frame)
  | .rstStream =>
    if frame.payload.length ≥ 4 then
      let code := readBe32 frame.payload 0
      let c := c.modifyStream frame.streamId fun s => { s with state := .closed, endStream := true }
      if code ≠ 0 then (.error (.streamError frame.streamId code), c) else (.ok (), c)
    else (.ok (), c)
  | .settings =>
    if frame.has flagAck then (.ok (), c)
    else (.ok (), (c.applySettings frame.payload).sendFrame 0x4 flagAck 0 [])
  | .ping =>
    if !frame.has flagAck && frame.payload.length = 8 then
      (.ok (), c.sendFrame 0x6 flagAck 0 frame.payload)
    else (.ok (), c)
  | .goAway =>
    (.error (.goAway (if frame.payload.length ≥ 8 then readBe32 frame.payload 4 else 0)), c)
  | .windowUpdate => c.handleWindowUpdate frame
  | .pushPromise | .priority | .unknown => (.ok (), c)

/-- The end of `recv_response`: the stream is removed once the response is complete. -/
def finish : Http2Connection :=
  match c.streams id with
  | some stream =>
    if stream.endStream && stream.headersDone then
      { c with streams := fun i => if i = id then none else c.streams i }
    else c
  | none => c

/-- The number that `saturating_sub(2)` leaves of the next stream. -/
def shutdown : Http2Connection :=
  let lastStream := UInt32.ofNat (c.nextStreamId.toNat - 2)
  c.sendFrame 0x7 0 0 (be32 lastStream ++ be32 0)

end Http2Connection

/-- A call, or an iteration of a loop that reads frames. -/
inductive Event where
  | connect
  /-- a frame of the peer that `connect` reads -/
  | setup (frame : Frame)
  | sendRequest (method path authority scheme : String) (extraHeaders : List Header)
      (body : Option (List UInt8))
  /-- a frame of the peer that `recv_response` reads -/
  | receive (frame : Frame)
  | finish (id : UInt32)
  | shutdown

/-- The frame that the peer puts on the wire at an event. -/
def Event.frame : Event → Option Frame
  | .setup frame => some frame
  | .receive frame => some frame
  | _ => none

/-- Reads the bytes of a frame and hands the frame on. -/
def Http2Connection.read (c : Http2Connection) (frame : Frame)
    (handle : Http2Connection → Frame → Outcome Unit) : Http2Connection :=
  match recvFrame c.peerMaxFrameSize (encodeFrame frame) with
  | .ok (received, _) => (handle c received).2
  | .error _ => c

def Http2Connection.step (c : Http2Connection) (event : Event) : Http2Connection :=
  let c := { c with outbox := [] }
  match event with
  | .connect => c.connect
  | .setup frame => c.read frame connectFrame
  | .sendRequest method path authority scheme extraHeaders body =>
    (c.sendRequest method path authority scheme extraHeaders body).2
  | .receive frame => c.read frame processFrame
  | .finish id => c.finish id
  | .shutdown => c.shutdown

end SmartOs.Net.Http2
