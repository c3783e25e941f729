/-
# The tables of the TCP stack

The sockets and the listening ports, and the calls and events that change them. A listening port
has a queue of sockets for `accept`, which holds sixteen.

Beside its block a socket carries whether `accept` still owes it to a caller: it was made by an
incoming SYN and has not been returned. The stack keeps the sockets that `accept` returned
although they were no longer in the table. Sockets are numbered by a 64-bit counter; here it does
not come round.
-/

import SmartOs.Net.TcpSegment

namespace SmartOs.Net.Tcp

structure Socket where
  tcb : Tcb
  /-- The socket was made by a SYN and `accept` has not returned it. -/
  unclaimed : Bool

structure Stack where
  connections : ℕ → Option Socket
  listeners : UInt16 → Option (List ℕ)
  nextSocketId : ℕ
  /-- `TICK_COUNTER` -/
  tick : UInt64
  /-- The segments sent, in order. -/
  sent : List Segment
  /-- What `accept` returned without its being in the table. -/
  stale : List ℕ

/-- The block belongs to a remote address and port and a local port. -/
def Tcb.Matches (tcb : Tcb) (remoteIp : Ipv4Addr) (remotePort localPort : UInt16) : Prop :=
  tcb.remoteIp = remoteIp ∧ tcb.remotePort = remotePort ∧ tcb.localPort = localPort

instance (tcb : Tcb) (remoteIp : Ipv4Addr) (remotePort localPort : UInt16) :
    Decidable (tcb.Matches remoteIp remotePort localPort) := inferInstanceAs (Decidable (_ ∧ _))

variable (s : Stack) (id : ℕ)

namespace Stack

def init : Stack where
  connections := fun _ => none
  listeners := fun _ => none
  nextSocketId := 1
  tick := 0
  sent := []
  stale := []

/-- A new socket under the next number. -/
def insert (opened : Tcb × List Segment) (unclaimed : Bool) : Stack :=
  { s with
    connections := Function.update s.connections s.nextSocketId (some ⟨opened.1, unclaimed⟩)
    nextSocketId := s.nextSocketId + 1
    sent := s.sent ++ opened.2 }

/-- The block of a socket replaced, or the socket removed. -/
def put (sock : Socket) (tcb : Option Tcb) (segs : List Segment) : Stack :=
  { s with
    connections := Function.update s.connections id (tcb.map fun tcb => { sock with tcb })
    sent := s.sent ++ segs }

def connect (remoteIp : Ipv4Addr) (remotePort localPort : UInt16) (isn : UInt32) : ℕ × Stack :=
  (s.nextSocketId, s.insert (Tcb.connect remoteIp remotePort localPort isn s.tick) false)

def listen (port : UInt16) : Except String Unit × Stack :=
  match s.listeners port with
  | some _ => (.error "Port already listening", s)
  | none => (.ok (), { s with listeners := Function.update s.listeners port (some []) })

/-- `accept` returned the socket. -/
def claim : Stack :=
  match s.connections id with
  | some sock => { s with
      connections := Function.update s.connections id (some { sock with unclaimed := false }) }
  | none => { s with stale := s.stale ++ [id] }

def accept (port : UInt16) : Option ℕ × Stack :=
  match s.listeners port with
  | some (id :: queue) =>
    (some id, { s with listeners := Function.update s.listeners port (some queue) }.claim id)
  | _ => (none, s)

def send (data : List UInt8) : Except String ℕ × Stack :=
  match s.connections id with
  | none => (.error "Invalid socket", s)
  | some sock =>
    match sock.tcb.send s.tick data with
    | .error e => (.error e, s)
    | .ok (n, tcb, segs) => (.ok n, s.put id sock (some tcb) segs)

def recv (len : ℕ) : Except String (List UInt8) × Stack :=
  match s.connections id with
  | none => (.error "Invalid socket", s)
  | some sock =>
    match sock.tcb.recv len with
    | .error e => (.error e, s)
    | .ok (bytes, tcb) => (.ok bytes, s.put id sock (some tcb) [])

def close : Except String Unit × Stack :=
  match s.connections id with
  | none => (.error "Invalid socket", s)
  | some sock =>
    let (tcb, segs) := sock.tcb.close s.tick
    (.ok (), s.put id sock tcb segs)

/-- The first socket with these addresses, in the order of their numbers. -/
def find (remoteIp : Ipv4Addr) (remotePort localPort : UInt16) : Option ℕ :=
  (List.range s.nextSocketId).find? fun id =>
    (s.connections id).any fun sock => sock.tcb.Matches remoteIp remotePort localPort

/-- What is sent to a segment that belongs to no socket. -/
def reset (srcIp : Ipv4Addr) (hdr : TcpHeader) (data : List UInt8) : List Segment :=
  if hdr.has Flag.rst then []
  else if hdr.has Flag.ack then
    [⟨hdr.dstPort, hdr.srcPort, hdr.ackNum, 0, Flag.rst, 0, [], srcIp⟩]
  else
    [⟨hdr.dstPort, hdr.srcPort, 0, hdr.seqNum + .ofNat data.length, Flag.rst ||| Flag.ack, 0, [],
      srcIp⟩]

/-- The number of sockets a queue holds. -/
def acceptQueueMax : ℕ := 16

/-- A SYN to a listening port: the socket is made in any case, and queued if there is room. -/
def openPassive (isn : UInt32) (srcIp : Ipv4Addr) (hdr : TcpHeader) (queue : List ℕ) : Stack :=
  let s' := s.insert (Tcb.passiveOpen srcIp hdr isn s.tick) true
  if queue.length < acceptQueueMax then
    { s' with
      listeners := Function.update s.listeners hdr.dstPort (some (queue ++ [s.nextSocketId])) }
  else s'

/-- What `handle_tcp` does with a segment that has been parsed. -/
def handleSegment (isn : UInt32) (srcIp : Ipv4Addr) (hdr : TcpHeader) (data : List UInt8) : Stack :=
  match s.find srcIp hdr.srcPort hdr.dstPort with
  | some id =>
    match s.connections id with
    | some sock =>
      let (tcb, segs) := sock.tcb.processSegment s.tick hdr data
      s.put id sock (some tcb) segs
    | none => s
  | none =>
    match hdr.has Flag.syn && !hdr.has Flag.ack, s.listeners hdr.dstPort with
    | true, some queue => s.openPassive isn srcIp hdr queue
    | _, _ => { s with sent := s.sent ++ reset srcIp hdr data }

def handleTcp (isn : UInt32) (srcIp : Ipv4Addr) (payload : List UInt8) : Stack :=
  match parse payload with
  | none => s
  | some (hdr, data) => s.handleSegment isn srcIp hdr.toTcpHeader data

/-- `tcp_timer_tick`, for all sockets in the order of their numbers. -/
def timerTick : Stack :=
  { s with
    connections := fun id => (s.connections id).bind fun sock =>
      (sock.tcb.timerTick s.tick).1.map fun tcb => { sock with tcb }
    tick := s.tick + 1
    sent := s.sent ++ (List.range s.nextSocketId).flatMap fun id =>
      match s.connections id with
      | some sock => (sock.tcb.timerTick s.tick).2
      | none => [] }

/-- A call, a packet for the stack, or a tick of its timer. The initial sequence number that a call
generates comes with it. -/
inductive Event where
  | connect (remoteIp : Ipv4Addr) (remotePort localPort : UInt16) (isn : UInt32)
  | listen (port : UInt16)
  | accept (port : UInt16)
  | send (id : ℕ) (data : List UInt8)
  | recv (id len : ℕ)
  | close (id : ℕ)
  | segment (isn : UInt32) (srcIp : Ipv4Addr) (payload : List UInt8)
  | tick

def step : Event → Stack
  | .connect remoteIp remotePort localPort isn => (s.connect remoteIp remotePort localPort isn).2
  | .listen port => (s.listen port).2
  | .accept port => (s.accept port).2
  | .send id data => (s.send id data).2
  | .recv id len => (s.recv id len).2
  | .close id => (s.close id).2
  | .segment isn srcIp payload => s.handleTcp isn srcIp payload
  | .tick => s.timerTick

def run (events : List Event) : Stack := events.foldl step s

@[simp] theorem run_nil : s.run [] = s := rfl

@[simp] theorem run_cons (event : Event) (events : List Event) : s.run (event :: events) = (s.step
    event).run events := rfl

end Stack

end SmartOs.Net.Tcp
