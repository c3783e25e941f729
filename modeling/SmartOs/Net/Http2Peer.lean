/-
# Flow control of HTTP/2 connections

Both ends of a connection keep books. The peer knows how much data it has allowed the client to
send, on the connection and on each stream, how long a frame may be, and how much it may still send
itself. The client obeys flow control if it never sends more than that and if its own local windows
are the ones that the peer computes.

The client looks at neither the windows nor the frame size of the peer when it sends a request, and
it counts the data of a padded frame without the padding. It obeys flow control exactly as long as
requests fit what the peer allows and no padded data comes.
-/

import SmartOs.Net.Http2

open SmartOs.Math

namespace SmartOs.Net.Http2

/-! ## The wire -/

/-- The frame header has room for the length and the stream. -/
def Frame.Fits (f : Frame) : Prop := f.payload.length < 2 ^ 24 ∧ f.streamId.toNat < 2 ^ 31
  deriving Decidable

theorem and_mask {x : UInt32} (small : x.toNat < 2 ^ 31) : x &&& 0x7FFFFFFF = x := by
  rw [← UInt32.toNat_inj]
  exact (Nat.and_two_pow_sub_one_eq_mod x.toNat 31).trans (Nat.mod_eq_of_lt small)

theorem recvFrame_encodeFrame {f : Frame} {maxSize : UInt32} (fits : f.Fits)
    (allowed : f.payload.length ≤ maxSize.toNat) :
    recvFrame maxSize (encodeFrame f) = .ok (f, []) := by
  have length : (beBytesOn 3 f.payload.length).length = 3 := length_beBytesOn 3 _
  obtain ⟨a, b, c, bytes⟩ := List.length_eq_three.mp length
  obtain ⟨d, e, g, h, stream⟩ : ∃ d e g h, be32 (f.streamId &&& 0x7FFFFFFF) = [d, e, g, h] := by
    have four := length_be32 (f.streamId &&& 0x7FFFFFFF)
    match be32 (f.streamId &&& 0x7FFFFFFF), four with
    | [d, e, g, h], _ => exact ⟨d, e, g, h, rfl⟩
  have value : ofBeBytes [a, b, c] = f.payload.length := by
    rw [← bytes]
    exact ofBeBytes_beBytesOn fits.1
  have id : readBe32 [a, b, c, f.ftype, f.flags, d, e, g, h] 5 = f.streamId := by
    rw [and_mask fits.2] at stream
    exact @readBe32_of_drop _ [] 5 f.streamId (by simp [stream])
  have wire : encodeFrame f =
      [a, b, c, f.ftype, f.flags, d, e, g, h] ++ f.payload := by
    simp [encodeFrame, bytes, stream]
  simp only [recvFrame, wire]
  simp [value, id, and_mask fits.2, not_lt.mpr allowed]

/-! ## The books of the peer -/

/-- What the peer knows of the connection. -/
structure Peer where
  /-- its own settings, as it sent them last -/
  maxFrameSize : UInt32
  initialWindow : UInt32
  /-- the data that the client may send on the connection, and what it has sent -/
  connectionCredit : ℕ
  connectionData : ℕ
  /-- the increments for a stream since it was opened, and the data the client has sent on it -/
  streamIncrements : UInt32 → ℕ
  streamData : UInt32 → ℕ
  /-- what the peer may still send -/
  connectionWindow : ℤ
  streamWindow : UInt32 → ℤ

namespace Peer

def new : Peer where
  maxFrameSize := 16384
  initialWindow := 65535
  connectionCredit := 65535
  connectionData := 0
  streamIncrements := fun _ => 0
  streamData := fun _ => 0
  connectionWindow := 65535
  streamWindow := fun _ => 65535

def applySetting (p : Peer) (setting : UInt16 × UInt32) : Peer :=
  if setting.1 = settingsInitialWindowSize then { p with initialWindow := setting.2 }
  else if setting.1 = settingsMaxFrameSize then { p with maxFrameSize := setting.2 }
  else p

/-- The peer sends a frame. All of the payload of a data frame counts, with its padding. -/
def sends (p : Peer) (f : Frame) : Peer :=
  match f.kind with
  | .settings => if f.has flagAck then p else (settingsOf f.payload).foldl applySetting p
  | .windowUpdate =>
    if f.payload.length < 4 then p
    else if f.streamId = 0 then
      { p with connectionCredit := p.connectionCredit + (incrementOf f.payload).toNat }
    else
      { p with streamIncrements := fun i =>
          if i = f.streamId then p.streamIncrements i + (incrementOf f.payload).toNat
          else p.streamIncrements i }
  | .data =>
    { p with
      connectionWindow := p.connectionWindow - f.payload.length
      streamWindow := fun i =>
        if i = f.streamId then p.streamWindow i - f.payload.length else p.streamWindow i }
  | _ => p

/-- The peer receives a frame. A header block opens its stream. -/
def receives (p : Peer) (f : Frame) : Peer :=
  match f.kind with
  | .headers =>
    { p with
      streamIncrements := fun i => if i = f.streamId then 0 else p.streamIncrements i
      streamData := fun i => if i = f.streamId then 0 else p.streamData i
      streamWindow := fun i => if i = f.streamId then 65535 else p.streamWindow i }
  | .data =>
    { p with
      connectionData := p.connectionData + f.payload.length
      streamData := fun i =>
        if i = f.streamId then p.streamData i + f.payload.length else p.streamData i }
  | .windowUpdate =>
    if f.streamId = 0 then
      { p with connectionWindow := p.connectionWindow + (incrementOf f.payload).toNat }
    else
      { p with streamWindow := fun i =>
          if i = f.streamId then p.streamWindow i + (incrementOf f.payload).toNat
          else p.streamWindow i }
  | _ => p

/-- The peer reads a frame off the wire. -/
def reads (p : Peer) (f : Frame) : Peer :=
  match recvFrame 0xFFFFFF (encodeFrame f) with
  | .ok (received, _) => p.receives received
  | .error _ => p

theorem reads_eq {p : Peer} {f : Frame} (fits : f.Fits) : p.reads f = p.receives f := by
  have allowed : f.payload.length ≤ (0xFFFFFF : UInt32).toNat := Nat.le_sub_one_of_lt fits.1
  simp [reads, recvFrame_encodeFrame fits allowed]

/-- The frame is not too long, and its data is within the credit of the connection and of the
stream. -/
def Allows (p : Peer) (f : Frame) : Prop :=
  f.payload.length ≤ p.maxFrameSize.toNat ∧
    (f.kind = .data → p.connectionData + f.payload.length ≤ p.connectionCredit ∧
      p.streamData f.streamId + f.payload.length ≤
        p.initialWindow.toNat + p.streamIncrements f.streamId)

/-- Each of the frames is allowed when it comes. -/
def AllowsAll (p : Peer) : List Frame → Prop
  | [] => True
  | f :: frames => p.Allows f ∧ (p.reads f).AllowsAll frames

end Peer

/-! ## Both ends -/

structure System where
  client : Http2Connection
  peer : Peer

variable (s : System) (event : Event)

namespace System

def start : System := ⟨.new, .new⟩

/-- The peer once it has sent the frame of an event. -/
def peerBefore : Peer := event.frame.elim s.peer s.peer.sends

def step : System :=
  let client := s.client.step event
  ⟨client, client.outbox.foldl Peer.reads (s.peerBefore event)⟩

def run (events : List Event) : System := events.foldl step s

/-- The client only sends what the peer allows. -/
def Obeys : Prop :=
  (s.peerBefore event).AllowsAll (s.client.step event).outbox

/-- The local windows are those that the peer computes. -/
def Agrees : Prop :=
  s.client.localWindow = s.peer.connectionWindow ∧
    ∀ id stream, s.client.streams id = some stream → stream.localWindow = s.peer.streamWindow id

/-- The frames of both ends fit the frame header, and those of the peer pass the length check of
the client. -/
def Framed : Prop :=
  (∀ f ∈ (s.client.step event).outbox, f.Fits) ∧
    ∀ f, event.frame = some f → f.Fits ∧ f.payload.length ≤ s.client.peerMaxFrameSize.toNat

/-- Data of this length makes a window low. -/
def Refills (f : Frame) : Prop :=
  s.client.localWindow - f.payload.length < 32768 ∨
    ∃ stream, s.client.streams f.streamId = some stream ∧
      stream.localWindow - f.payload.length < 32768

/-- A frame that the client reads: it fits its header and passes the length check. -/
def Readable (f : Frame) : Prop :=
  f.Fits ∧ f.payload.length ≤ s.client.peerMaxFrameSize.toNat

/-- A payload that the client can send: it fits the frame header and what the peer takes. -/
def Sendable (payload : List UInt8) : Prop :=
  payload.length < 2 ^ 24 ∧ payload.length ≤ s.client.peerMaxFrameSize.toNat

/-- Control frames fit the frame size of the peer. A request fits it too, and has its own stream
number, and its body is within the initial window and the credit that the connection has left. Data
comes without padding, and not before the connection is set up. -/
def Good : Event → Prop
  | .connect => 12 ≤ s.client.peerMaxFrameSize.toNat
  | .setup f => s.Readable f ∧ (f.kind = .data → f.payload = [])
  | .sendRequest method path authority scheme extraHeaders body => s.client.connected →
      s.client.nextStreamId.toNat < 2 ^ 31 ∧ s.Sendable
        (Http2Connection.requestHeaders method path authority scheme extraHeaders body) ∧
      ∀ data, body = some data → data ≠ [] → s.Sendable data ∧
        data.length ≤ s.client.peerInitialWindow.toNat ∧
        s.peer.connectionData + data.length ≤ s.peer.connectionCredit
  | .receive f => s.Readable f ∧ (f.kind = .data → (f.has flagPadded = false ∨ f.payload = []) ∧
        (s.Refills f → 4 ≤ s.client.peerMaxFrameSize.toNat))
  | .finish _ => True
  | .shutdown => 8 ≤ s.client.peerMaxFrameSize.toNat

end System

end SmartOs.Net.Http2
