/-
# TCP connections

The transmission control block of one connection and everything that happens to it: the
calls `send`, `recv` and `close`, segments handed over by the IPv4 handler, and the timer
tick of the receive thread. Each function takes the block and returns the new one together
with the segments it passes to `send_tcp_raw`.

`Connection` keeps the history of a connection beside its block: the bytes `send` has
accepted, the bytes `recv` has returned and the segments sent. The block is `none` once the
socket has been removed from `TCP_CONNECTIONS`.
-/

import Mathlib.Data.Vector.Basic
import SmartOs.CS.Run

namespace SmartOs.Net.Tcp

def recvBufMax : ℕ := 16384
def sendBufMax : ℕ := 16384
def windowSize : UInt16 := 8192
def retransmitTimeout : UInt64 := 200
def maxRetransmits : UInt8 := 5
def maxSegmentSize : ℕ := 1460

namespace Flag

def fin : UInt8 := 0x01
def syn : UInt8 := 0x02
def rst : UInt8 := 0x04
def psh : UInt8 := 0x08
def ack : UInt8 := 0x10

end Flag

/-- The header fields of an incoming segment that the state machine reads. -/
structure TcpHeader where
  srcPort : UInt16
  dstPort : UInt16
  seqNum : UInt32
  ackNum : UInt32
  flags : UInt8
  windowSize : UInt16
  deriving DecidableEq

def TcpHeader.has (hdr : TcpHeader) (flag : UInt8) : Bool := hdr.flags &&& flag != 0

/-- What `send_tcp_raw` is called with. -/
structure Segment where
  srcPort : UInt16
  dstPort : UInt16
  seq : UInt32
  ack : UInt32
  flags : UInt8
  window : UInt16
  payload : List UInt8
  dstIp : Vector UInt8 4
  deriving DecidableEq

def Segment.has (seg : Segment) (flag : UInt8) : Bool := seg.flags &&& flag != 0

inductive TcpState where
  | closed
  | listen
  | synSent
  | synReceived
  | established
  | finWait1
  | finWait2
  | closeWait
  | lastAck
  | timeWait
  deriving DecidableEq

/-- The transmission control block. `retransmitSeg` is the payload of the last data segment
until an acknowledgement clears it. -/
structure Tcb where
  state : TcpState
  localPort : UInt16
  remotePort : UInt16
  remoteIp : Vector UInt8 4
  sndUna : UInt32
  sndNxt : UInt32
  rcvNxt : UInt32
  sndWnd : UInt16
  rcvWnd : UInt16
  recvBuf : List UInt8
  sendBuf : List UInt8
  retransmitSeg : List UInt8
  retransmitTick : UInt64
  retransmitCount : UInt8
  timeWaitTick : UInt64
  deriving DecidableEq

namespace Tcb

variable (now : UInt64) (tcb : Tcb) (hdr : TcpHeader) (data : List UInt8)

def new (localPort : UInt16) (remoteIp : Vector UInt8 4) (remotePort : UInt16) : Tcb where
  state := .closed
  localPort := localPort
  remotePort := remotePort
  remoteIp := remoteIp
  sndUna := 0
  sndNxt := 0
  rcvNxt := 0
  sndWnd := windowSize
  rcvWnd := windowSize
  recvBuf := []
  sendBuf := []
  retransmitSeg := []
  retransmitTick := 0
  retransmitCount := 0
  timeWaitTick := 0

/-- `send_tcp_raw` with the addresses of the connection. -/
def sendTcpRaw (seq ack : UInt32) (flags : UInt8) (window : UInt16) (payload : List UInt8) :
    Segment :=
  ⟨tcb.localPort, tcb.remotePort, seq, ack, flags, window, payload, tcb.remoteIp⟩

/-- The segment that only acknowledges what has been received. -/
def ackSegment : Segment :=
  tcb.sendTcpRaw tcb.sndNxt tcb.rcvNxt Flag.ack windowSize []

/-- The segment with which `close` ends the outgoing stream. -/
def finSegment : Segment :=
  tcb.sendTcpRaw tcb.sndNxt tcb.rcvNxt (Flag.fin ||| Flag.ack) windowSize []

/-- The segment that resets the connection. -/
def rstSegment : Segment := tcb.sendTcpRaw tcb.sndNxt 0 Flag.rst 0 []

/-! ## Opening -/

/-- The block that `connect` inserts, and its SYN. -/
def connect (remoteIp : Vector UInt8 4) (remotePort localPort : UInt16) (isn : UInt32)
    (now : UInt64) : Tcb × List Segment :=
  let tcb := { new localPort remoteIp remotePort with
    sndNxt := isn + 1
    sndUna := isn
    state := .synSent
    retransmitTick := now }
  (tcb, [tcb.sendTcpRaw isn 0 Flag.syn windowSize []])

/-- The block that `handle_tcp` inserts for a SYN to a listening port, and its answer. -/
def passiveOpen (srcIp : Vector UInt8 4) (hdr : TcpHeader) (isn : UInt32) (now : UInt64) :
    Tcb × List Segment :=
  let tcb := { new hdr.dstPort srcIp hdr.srcPort with
    rcvNxt := hdr.seqNum + 1
    sndNxt := isn + 1
    sndUna := isn
    sndWnd := hdr.windowSize
    state := .synReceived
    retransmitTick := now }
  (tcb, [tcb.sendTcpRaw isn tcb.rcvNxt (Flag.syn ||| Flag.ack) windowSize []])

/-! ## Calls -/

/-- The body of the loop in `flush_send_buf`: the first `toSend` queued bytes as a segment. -/
def transmit (toSend : ℕ) : Tcb × Segment :=
  let payload := tcb.sendBuf.take toSend
  ({ tcb with
      sendBuf := tcb.sendBuf.drop toSend
      retransmitSeg := payload
      retransmitTick := now
      sndNxt := tcb.sndNxt + .ofNat toSend },
    tcb.sendTcpRaw tcb.sndNxt tcb.rcvNxt (Flag.ack ||| Flag.psh) windowSize payload)

/-- How many bytes the next data segment carries. The peer's window bounds each segment; the
bytes already in flight are not counted against it. -/
def nextSegmentSize : ℕ :=
  min tcb.sendBuf.length (min tcb.sndWnd.toNat maxSegmentSize)

def flushSendBuf (now : UInt64) (tcb : Tcb) : Tcb × List Segment :=
  if tcb.sendBuf = [] ∨ tcb.nextSegmentSize = 0 then (tcb, [])
  else
    let first := tcb.transmit now tcb.nextSegmentSize
    let rest := flushSendBuf now first.1
    (rest.1, first.2 :: rest.2)
termination_by tcb.sendBuf.length
decreasing_by
  rename_i stop
  have queued : tcb.sendBuf.length ≠ 0 := fun empty =>
    stop (.inl (List.eq_nil_of_length_eq_zero empty))
  simp only [transmit, List.length_drop]
  omega

def send : Except String (ℕ × Tcb × List Segment) :=
  if tcb.state ≠ .established ∧ tcb.state ≠ .closeWait then
    .error "Connection not established"
  else
    let toSend := min data.length (sendBufMax - tcb.sendBuf.length)
    if toSend = 0 then .error "Send buffer full"
    else
      .ok (toSend, flushSendBuf now { tcb with sendBuf := tcb.sendBuf ++ data.take toSend })

theorem send_ok {now : UInt64} {tcb last : Tcb} {data : List UInt8} {n : ℕ}
    {segs : List Segment} (sent : tcb.send now data = .ok (n, last, segs)) :
    (tcb.state = .established ∨ tcb.state = .closeWait) ∧
      (last, segs) = flushSendBuf now { tcb with sendBuf := tcb.sendBuf ++ data.take n } := by
  rw [send] at sent
  split at sent
  · cases sent
  rename_i ok
  dsimp only at sent
  split at sent
  · cases sent
  · obtain ⟨rfl, flushed⟩ := Prod.mk.inj (Except.ok.inj sent)
    exact ⟨by grind, flushed.symm⟩

/-- `recv` with a buffer of `len` bytes: what is written to the buffer, and the block. -/
def recv (len : ℕ) : Except String (List UInt8 × Tcb) :=
  if tcb.recvBuf = [] then
    if tcb.state = .closeWait ∨ tcb.state = .closed ∨ tcb.state = .timeWait then
      .error "Connection closed by peer"
    else .ok ([], tcb)
  else
    let n := min len tcb.recvBuf.length
    .ok (tcb.recvBuf.take n, { tcb with recvBuf := tcb.recvBuf.drop n })

theorem recv_ok {tcb last : Tcb} {len : ℕ} {bytes : List UInt8}
    (received : tcb.recv len = .ok (bytes, last)) :
    ∃ rest, tcb.recvBuf = bytes ++ rest ∧ last = { tcb with recvBuf := rest } := by
  rw [recv] at received
  split at received
  · split at received
    · cases received
    · cases received
      exact ⟨tcb.recvBuf, rfl, rfl⟩
  · cases received
    exact ⟨_, (List.take_append_drop _ _).symm, rfl⟩

/-- The FIN goes out at once, whether or not the send buffer is empty. -/
def close : Option Tcb × List Segment :=
  match tcb.state with
  | .established =>
    (some { tcb with sndNxt := tcb.sndNxt + 1, state := .finWait1, retransmitTick := now },
      [tcb.finSegment])
  | .closeWait =>
    (some { tcb with sndNxt := tcb.sndNxt + 1, state := .lastAck }, [tcb.finSegment])
  | .synSent | .synReceived => (none, [tcb.rstSegment])
  | _ => (none, [])

/-! ## Incoming segments -/

/-- `a` is after `b` in sequence space. -/
def seqAfter (a b : UInt32) : Bool := 0 < (a - b).toInt32

def acceptData (seq : UInt32) (data : List UInt8) : Tcb × List Segment :=
  let tcb :=
    if seq = tcb.rcvNxt ∧ tcb.recvBuf.length + data.length ≤ recvBufMax then
      { tcb with recvBuf := tcb.recvBuf ++ data, rcvNxt := tcb.rcvNxt + .ofNat data.length }
    else tcb
  (tcb, [tcb.ackSegment])

/-- The part of several states that hands the payload to `accept_data` if there is any. -/
def takePayload : Tcb × List Segment :=
  if data ≠ [] then tcb.acceptData hdr.seqNum data else (tcb, [])

/-- The acknowledgement number and the window of a segment in the established state. -/
def advanceUna : Tcb :=
  if hdr.has Flag.ack then
    let tcb :=
      if seqAfter hdr.ackNum tcb.sndUna then
        { tcb with sndUna := hdr.ackNum, retransmitSeg := [], retransmitCount := 0 }
      else tcb
    { tcb with sndWnd := hdr.windowSize }
  else tcb

def processEstablished : Tcb × List Segment :=
  let (tcb, acks) := (tcb.advanceUna hdr).takePayload hdr data
  if hdr.has Flag.fin then
    let tcb := { tcb with
      rcvNxt := hdr.seqNum + .ofNat data.length + 1
      state := .closeWait }
    (tcb, acks ++ [tcb.ackSegment])
  else (tcb, acks)

/-- The peer's FIN in the two states after our own. -/
def enterTimeWait : Tcb :=
  { tcb with rcvNxt := hdr.seqNum + 1, state := .timeWait, timeWaitTick := now }

def processSegment : Tcb × List Segment :=
  if hdr.has Flag.rst then ({ tcb with state := .closed }, [])
  else
    match tcb.state with
    | .synSent =>
      if hdr.has Flag.syn && hdr.has Flag.ack then
        let tcb := { tcb with
          rcvNxt := hdr.seqNum + 1
          sndUna := hdr.ackNum
          sndWnd := hdr.windowSize
          state := .established
          retransmitSeg := []
          retransmitCount := 0 }
        (tcb, [tcb.ackSegment])
      else (tcb, [])
    | .synReceived =>
      if hdr.has Flag.ack then
        let tcb := { tcb with
          sndUna := hdr.ackNum
          sndWnd := hdr.windowSize
          state := .established
          retransmitSeg := []
          retransmitCount := 0 }
        tcb.takePayload hdr data
      else (tcb, [])
    | .established => tcb.processEstablished hdr data
    | .finWait1 =>
      if hdr.has Flag.ack then
        let tcb := { tcb with sndUna := hdr.ackNum }
        if hdr.has Flag.fin then
          let tcb := tcb.enterTimeWait now hdr
          (tcb, [tcb.ackSegment])
        else ({ tcb with state := .finWait2 }, [])
      else (tcb, [])
    | .finWait2 =>
      if hdr.has Flag.fin then
        -- the FIN is taken before the data, which then no longer starts at `rcv_nxt`
        let tcb := tcb.enterTimeWait now hdr
        let (last, acks) := tcb.takePayload hdr data
        (last, tcb.ackSegment :: acks)
      else tcb.takePayload hdr data
    | .lastAck => (if hdr.has Flag.ack then { tcb with state := .closed } else tcb, [])
    | _ => (tcb, [])

/-! ## The timer -/

/-- The SYN is sent again while the connection waits for its answer. -/
def tickSynSent : Option Tcb × List Segment :=
  if tcb.state = .synSent ∧ now - tcb.retransmitTick > retransmitTimeout then
    if tcb.retransmitCount ≥ maxRetransmits then (none, [])
    else
      (some { tcb with
          retransmitTick := now
          retransmitCount := tcb.retransmitCount + 1 },
        [tcb.sendTcpRaw tcb.sndUna 0 Flag.syn windowSize []])
  else (some tcb, [])

/-- The retransmission timer of the data has expired. -/
def TimedOut : Prop :=
  tcb.retransmitSeg ≠ [] ∧ now - tcb.retransmitTick > retransmitTimeout
  deriving Decidable

/-- The segment sent again: the payload held back last, at the oldest unacknowledged
sequence number. -/
def retransmission : Segment :=
  tcb.sendTcpRaw tcb.sndUna tcb.rcvNxt (Flag.ack ||| Flag.psh) windowSize tcb.retransmitSeg

/-- The part of `tcp_timer_tick` for one connection. -/
def timerTick : Option Tcb × List Segment :=
  if tcb.state = .timeWait then
    (if now - tcb.timeWaitTick > 400 then none else some tcb, [])
  else if tcb.state = .closed then (none, [])
  else if tcb.TimedOut now then
    if tcb.retransmitCount ≥ maxRetransmits then (none, [tcb.rstSegment])
    else
      let (last, segs) := tickSynSent now { tcb with
        retransmitTick := now
        retransmitCount := tcb.retransmitCount + 1 }
      (last, tcb.retransmission :: segs)
  else tickSynSent now tcb

end Tcb

/-! ## Streams -/

/-- The sequence number of the byte at `offset` in a stream that starts after `iss`. -/
def seqAt (iss : UInt32) (offset : ℕ) : UInt32 := iss + 1 + .ofNat offset

@[simp]
theorem seqAt_zero (iss : UInt32) : seqAt iss 0 = iss + 1 := by
  simp [seqAt]

theorem seqAt_add (iss : UInt32) (offset n : ℕ) :
    seqAt iss (offset + n) = seqAt iss offset + .ofNat n := by
  simp only [seqAt, UInt32.ofNat_add]
  ac_rfl

theorem seqAt_inj_of_near {iss : UInt32} {m n : ℕ} (same : seqAt iss m = seqAt iss n)
    (below : m < n + 2 ^ 32) (above : n < m + 2 ^ 32) : m = n := by
  have congruent : UInt32.ofNat m = UInt32.ofNat n := by
    simpa [seqAt] using same
  have residues : m % 2 ^ 32 = n % 2 ^ 32 := by
    simpa using congrArg UInt32.toNat congruent
  omega

/-! ## Histories -/

/-- One connection of the stack with its history. -/
structure Connection where
  tcb : Option Tcb
  /-- `TICK_COUNTER` -/
  tick : UInt64
  /-- The bytes accepted by `send`, in order. -/
  written : List UInt8
  /-- The bytes returned by `recv`, in order. -/
  delivered : List UInt8
  /-- The segments sent, in order. -/
  emitted : List Segment
  /-- The connection has left the states before the peer's SYN. -/
  synced : Bool
  /-- The connection has been in a state that follows the peer's FIN. -/
  finAccepted : Bool
  deriving DecidableEq

inductive Event where
  | send (data : List UInt8)
  | recv (len : ℕ)
  | close
  | segment (hdr : TcpHeader) (data : List UInt8)
  | tick

namespace Connection

def isSynced (tcb : Tcb) : Bool := tcb.state ≠ .closed ∧ tcb.state ≠ .synSent

def isFinAccepted (tcb : Tcb) : Bool := tcb.state = .closeWait ∨ tcb.state = .timeWait

/-- The connection once its block has become `tcb` and `segs` have been sent. -/
def update (conn : Connection) (tcb : Option Tcb) (segs : List Segment) : Connection :=
  { conn with
    tcb := tcb
    emitted := conn.emitted ++ segs
    synced := conn.synced || tcb.any isSynced
    finAccepted := conn.finAccepted || tcb.any isFinAccepted }

/-- A connection right after its block was inserted. -/
def start (now : UInt64) (opened : Tcb × List Segment) : Connection where
  tcb := some opened.1
  tick := now
  written := []
  delivered := []
  emitted := opened.2
  synced := isSynced opened.1
  finAccepted := isFinAccepted opened.1

/-- What an event does to a connection whose block is in the table. -/
def stepOpen (conn : Connection) (tcb : Tcb) : Event → Connection
  | .send data =>
    match tcb.send conn.tick data with
    | .error _ => conn
    | .ok (n, last, segs) =>
      { conn.update (some last) segs with written := conn.written ++ data.take n }
  | .recv len =>
    match tcb.recv len with
    | .error _ => conn
    | .ok (bytes, last) =>
      { conn.update (some last) [] with delivered := conn.delivered ++ bytes }
  | .close =>
    let (last, segs) := tcb.close conn.tick
    conn.update last segs
  | .segment hdr data =>
    let (last, segs) := tcb.processSegment conn.tick hdr data
    conn.update (some last) segs
  | .tick =>
    let (last, segs) := tcb.timerTick conn.tick
    { conn.update last segs with tick := conn.tick + 1 }

/-- One event. A removed socket is not found by any call. -/
def step (conn : Connection) (event : Event) : Connection :=
  match conn.tcb, event with
  | some tcb, event => conn.stepOpen tcb event
  | none, .tick => { conn with tick := conn.tick + 1 }
  | none, _ => conn

theorem step_some {conn : Connection} {tcb : Tcb} (here : conn.tcb = some tcb) (event : Event) :
    conn.step event = conn.stepOpen tcb event := by
  unfold step
  rw [here]

/-- The step as a relation. -/
def Steps (conn : Connection) (event : Event) (next : Connection) : Prop :=
  conn.step event = next

end Connection

end SmartOs.Net.Tcp
