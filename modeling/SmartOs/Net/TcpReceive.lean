/-
# What a connection receives

The peer sends one byte stream, numbered from the byte after its initial sequence number and
ended by a FIN. The network delivers segments of it in any order and any number of times. The
receiver has no reassembly: it takes data that starts exactly at `rcv_nxt` and drops the rest.

Data is handled safely. The FIN is not: in the established state and in the two states after
the local `close` its sequence number is taken over without a comparison, so a FIN that comes
before the end of the data skips what is missing.
-/

import SmartOs.Net.TcpSend

namespace SmartOs.Net.Tcp

open List hiding Vector
open Connection TcpState Tcb Tcp.Flag

variable {iss : UInt32} {stream delivered : List UInt8} {synced fin : Bool} {tcb tcb' : Tcb}

/-! ## The peer -/

/-- A segment that a peer with this initial sequence number and stream can have sent, with
`offset` the position of its data. Only the flag matters in a reset. -/
structure PeerSegment (iss : UInt32) (stream : List UInt8) (offset : ℕ) (hdr : TcpHeader)
    (data : List UInt8) : Prop where
  syn : hdr.has rst = false → hdr.has syn →
    hdr.seqNum = iss ∧ data = [] ∧ hdr.has Flag.fin = false
  slice : hdr.has Flag.rst = false → hdr.has Flag.syn = false →
    data ≠ [] ∨ hdr.has Flag.fin → hdr.seqNum = seqAt iss offset ∧ data <+: stream.drop offset
  fin : hdr.has Flag.rst = false → hdr.has Flag.fin → offset + data.length = stream.length

instance (iss : UInt32) (stream : List UInt8) (offset : ℕ) (hdr : TcpHeader) (data : List UInt8) :
    Decidable (PeerSegment iss stream offset hdr data) :=
  decidable_of_iff (_ ∧ _ ∧ _) ⟨fun ⟨syn, slice, fin⟩ => ⟨syn, slice, fin⟩,
    fun peer => ⟨peer.syn, peer.slice, peer.fin⟩⟩

/-- The segment is less than one round of the sequence space away from the next byte. -/
def Near (accepted offset length : ℕ) : Prop :=
  offset + length < accepted + 2 ^ 32 ∧ accepted < offset + 2 ^ 32
  deriving Decidable

/-! ## The receiver's part of a block -/

/-- The states after the peer's FIN. -/
def TcpState.finReceived : TcpState → Bool
  | .closeWait | .lastAck | .timeWait => true
  | _ => false

/-- The bytes accepted so far are those returned and those waiting in the buffer. The flags
say whether the peer's SYN and its FIN have been taken. -/
structure Receiver (iss : UInt32) (stream delivered : List UInt8) (synced fin : Bool)
    (tcb : Tcb) : Prop where
  accepted : delivered ++ tcb.recvBuf <+: stream
  next : synced → tcb.rcvNxt =
    seqAt iss (delivered ++ tcb.recvBuf).length + if fin then 1 else 0
  finished : fin → delivered ++ tcb.recvBuf = stream
  unsynced : synced = false → delivered ++ tcb.recvBuf = []
  finState : tcb.state ≠ .closed → fin = tcb.state.finReceived
  syncState : tcb.state ≠ .closed → synced = decide (tcb.state ≠ .synSent)

/-- A change that leaves the incoming stream alone. -/
structure Calm (tcb tcb' : Tcb) : Prop where
  recvBuf : tcb'.recvBuf = tcb.recvBuf
  rcvNxt : tcb'.rcvNxt = tcb.rcvNxt
  state : tcb'.state ≠ .closed → tcb.state ≠ .closed ∧
    tcb'.state.finReceived = tcb.state.finReceived ∧
    (tcb'.state = .synSent ↔ tcb.state = .synSent)

theorem Calm.of_state (recvBuf : tcb'.recvBuf = tcb.recvBuf) (rcvNxt : tcb'.rcvNxt = tcb.rcvNxt)
    (state : tcb'.state = tcb.state) : Calm tcb tcb' :=
  ⟨recvBuf, rcvNxt, fun alive => by rw [state] at alive ⊢; exact ⟨alive, rfl, .rfl⟩⟩

theorem Receiver.calm (receiver : Receiver iss stream delivered synced fin tcb)
    (calm : Calm tcb tcb') : Receiver iss stream delivered synced fin tcb' where
  accepted := by
    rw [calm.recvBuf]
    exact receiver.accepted
  next := by
    rw [calm.recvBuf, calm.rcvNxt]
    exact receiver.next
  finished := by
    rw [calm.recvBuf]
    exact receiver.finished
  unsynced := by
    rw [calm.recvBuf]
    exact receiver.unsynced
  finState := by
    intro alive
    obtain ⟨alive, same, -⟩ := calm.state alive
    rw [same]
    exact receiver.finState alive
  syncState := by
    intro alive
    obtain ⟨alive, -, same⟩ := calm.state alive
    rw [receiver.syncState alive]
    simp [same]

theorem Receiver.flags (receiver : Receiver iss stream delivered synced fin tcb) :
    (synced || isSynced tcb) = synced ∧ (fin || isFinAccepted tcb) = fin := by
  by_cases alive : tcb.state = .closed
  · simp [isSynced, isFinAccepted, alive]
  rw [receiver.syncState alive, receiver.finState alive]
  cases state : tcb.state <;>
    simp [isSynced, isFinAccepted, finReceived, state]

/-! ## Data -/

theorem Receiver.append (receiver : Receiver iss stream delivered true false tcb)
    {offset : ℕ} {data : List UInt8} (here : (delivered ++ tcb.recvBuf).length = offset)
    (slice : data <+: stream.drop offset) : Receiver iss stream delivered true false
      { tcb with recvBuf := tcb.recvBuf ++ data, rcvNxt := tcb.rcvNxt + .ofNat data.length }
    where
  accepted := by
    obtain ⟨rest, split⟩ := receiver.accepted
    rw [← split, ← here, drop_left] at slice
    obtain ⟨tail, rfl⟩ := slice
    exact ⟨tail, by rw [← split]; simp⟩
  next := by
    intro _
    have next := receiver.next rfl
    simp only [Bool.false_eq_true, if_false, UInt32.add_zero] at next ⊢
    rw [next, ← seqAt_add, ← append_assoc, ← length_append]
  finished := by simp
  unsynced := by simp
  finState := receiver.finState
  syncState := receiver.syncState

/-- The sequence number of a near segment determines its place in the stream. -/
theorem Receiver.length_eq (receiver : Receiver iss stream delivered true false tcb)
    {offset length : ℕ} (near : Near (delivered ++ tcb.recvBuf).length offset length)
    {n : ℕ} (low : offset ≤ n) (high : n ≤ offset + length) (same : seqAt iss n = tcb.rcvNxt) :
    (delivered ++ tcb.recvBuf).length = n := by
  have next := receiver.next rfl
  simp only [Bool.false_eq_true, if_false, UInt32.add_zero] at next
  have bounds := near
  rw [Near] at bounds
  exact (seqAt_inj_of_near (same.trans next) (by omega) (by omega)).symm

section Segments

variable {offset : ℕ} {hdr : TcpHeader} {data : List UInt8}

theorem PeerSegment.not_syn (peer : PeerSegment iss stream offset hdr data)
    (notRst : hdr.has Flag.rst = false) (carries : data ≠ [] ∨ hdr.has Flag.fin) :
    hdr.has Flag.syn = false := by
  by_contra isSyn
  obtain ⟨-, empty, notFin⟩ := peer.syn notRst (by simpa using isSyn)
  rcases carries with data | isFin
  · exact data empty
  · simp [notFin] at isFin

theorem takePayload_recvBuf (tcb : Tcb) (hdr : TcpHeader) (data : List UInt8) :
    tcb.recvBuf <+: (tcb.takePayload hdr data).1.recvBuf := by
  rw [takePayload]
  split
  · rw [acceptData]
    split
    · exact prefix_append _ _
    · exact prefix_rfl
  · exact prefix_rfl

theorem takePayload_accepts (next : hdr.seqNum = tcb.rcvNxt)
    (room : tcb.recvBuf.length + data.length ≤ recvBufMax) :
    (tcb.takePayload hdr data).1.recvBuf = tcb.recvBuf ++ data := by
  rw [takePayload]
  split
  · rw [acceptData, if_pos ⟨next, room⟩]
  · rename_i empty
    rw [not_not.mp empty, append_nil]

/-! ## The FIN -/

/-- The FIN may be taken when nothing before it is missing. -/
theorem Receiver.finish (receiver : Receiver iss stream delivered true false tcb)
    (all : (delivered ++ tcb.recvBuf).length = stream.length)
    (recvBuf : tcb'.recvBuf = tcb.recvBuf) (rcvNxt : tcb'.rcvNxt = seqAt iss stream.length + 1)
    (finReceived : tcb'.state.finReceived) : Receiver iss stream delivered true true tcb' := by
  have complete : delivered ++ tcb'.recvBuf = stream := by
    rw [recvBuf]
    exact receiver.accepted.eq_of_length all
  refine ⟨?_, ?_, fun _ => complete, by simp, fun _ => finReceived.symm, fun _ => ?_⟩
  · exact complete.symm ▸ prefix_rfl
  · intro _
    rw [complete, rcvNxt, if_pos rfl]
  symm
  rw [decide_eq_true_eq]
  intro synSent
  simp [synSent, TcpState.finReceived] at finReceived

/-- When the code may take the number of a FIN over without a comparison. -/
def FinInOrder (tcb : Tcb) (hdr : TcpHeader) (data : List UInt8) : Prop :=
  match tcb.state with
  | .established => hdr.seqNum + .ofNat data.length = tcb.rcvNxt ∨
      hdr.seqNum = tcb.rcvNxt ∧ tcb.recvBuf.length + data.length ≤ recvBufMax
  | .finWait1 => hdr.has ack → data = [] ∧ hdr.seqNum = tcb.rcvNxt
  | .finWait2 => data = [] ∧ hdr.seqNum = tcb.rcvNxt
  | _ => True

instance (tcb : Tcb) (hdr : TcpHeader) (data : List UInt8) :
    Decidable (FinInOrder tcb hdr data) := by
  unfold FinInOrder
  split <;> infer_instance

theorem advanceUna_calm (tcb : Tcb) (hdr : TcpHeader) : Calm tcb (tcb.advanceUna hdr) := by
  apply Calm.of_state _ _ (advanceUna_state tcb hdr) <;>
    (rw [advanceUna]; dsimp only; repeat' split) <;> rfl

section Segment

variable (receiver : Receiver iss stream delivered true false tcb)
  (peer : PeerSegment iss stream offset hdr data) (notRst : hdr.has rst = false)
  (near : Near (delivered ++ tcb.recvBuf).length offset data.length)

include receiver peer notRst near

/-- Accepting a payload keeps the receiver right, whatever part of the stream it is. -/
theorem Receiver.takePayload :
    Receiver iss stream delivered true false (tcb.takePayload hdr data).1 := by
  rw [Tcb.takePayload]
  split
  · rename_i carries
    obtain ⟨place, slice⟩ := peer.slice notRst (peer.not_syn notRst (.inl carries)) (.inl carries)
    rw [acceptData]
    split
    · rename_i next
      have here := receiver.length_eq near (le_refl offset) (Nat.le_add_right _ _)
        (place.symm.trans next.1)
      exact receiver.append here slice
    · exact receiver
  · exact receiver

/-- A FIN in order leaves nothing of the stream missing once its data has been taken. -/
theorem Receiver.all_of_inOrder (isFin : hdr.has Flag.fin)
    (inOrder : hdr.seqNum + .ofNat data.length = tcb.rcvNxt ∨
      hdr.seqNum = tcb.rcvNxt ∧ tcb.recvBuf.length + data.length ≤ recvBufMax) :
    (delivered ++ (tcb.takePayload hdr data).1.recvBuf).length = stream.length := by
  obtain ⟨place, -⟩ := peer.slice notRst (peer.not_syn notRst (.inr isFin)) (.inr isFin)
  have ending := peer.fin notRst isFin
  rcases inOrder with behind | ⟨next, room⟩
  · -- the data was accepted before, so only a prefix of the stream can be there
    rw [place, ← seqAt_add] at behind
    have reached := receiver.length_eq near (Nat.le_add_right _ _) (le_refl _) behind
    have grown := (takePayload_recvBuf tcb hdr data).length_le
    have bounded := (receiver.takePayload peer notRst near).accepted.length_le
    simp only [length_append] at reached bounded ⊢
    omega
  · have reached := receiver.length_eq near (le_refl offset) (Nat.le_add_right _ _)
      (place.symm.trans next)
    rw [takePayload_accepts next room, ← append_assoc, length_append, reached, ending]

theorem Receiver.processEstablished (established : tcb.state = .established)
    (inOrder : hdr.has Flag.fin → FinInOrder tcb hdr data) :
    Receiver iss stream delivered true (hdr.has Flag.fin) (tcb.processEstablished hdr data).1 := by
  have calm := advanceUna_calm tcb hdr
  have advanced := receiver.calm calm
  rw [← calm.recvBuf] at near
  have taken := advanced.takePayload peer notRst near
  rw [processEstablished]
  dsimp only
  split
  · rename_i isFin
    have order := inOrder isFin
    simp only [FinInOrder, established, ← calm.recvBuf, ← calm.rcvNxt] at order
    obtain ⟨place, -⟩ := peer.slice notRst (peer.not_syn notRst (.inr isFin)) (.inr isFin)
    rw [isFin]
    refine taken.finish (advanced.all_of_inOrder peer notRst near isFin order) rfl ?_ rfl
    rw [place, ← seqAt_add, peer.fin notRst isFin]
  · rename_i notFin
    rw [eq_false_of_ne_true notFin]
    exact taken

theorem Receiver.enterTimeWait (isFin : hdr.has Flag.fin) (empty : data = [])
    (next : hdr.seqNum = tcb.rcvNxt) (now : UInt64) :
    Receiver iss stream delivered true true (tcb.enterTimeWait now hdr) := by
  subst empty
  obtain ⟨place, -⟩ := peer.slice notRst (peer.not_syn notRst (.inr isFin)) (.inr isFin)
  have ending := peer.fin notRst isFin
  have reached := receiver.length_eq near (le_refl offset) (Nat.le_add_right _ _)
    (place.symm.trans next)
  rw [length_nil, add_zero] at ending
  refine receiver.finish (reached.trans ending) rfl ?_ rfl
  rw [enterTimeWait, place, ending]

end Segment

/-! ## Events -/

/-- The receiver after a step, with the flags as the history updates them. -/
def ReceivesNext (iss : UInt32) (stream delivered : List UInt8) (synced fin : Bool)
    (last : Tcb) : Prop :=
  Receiver iss stream delivered (synced || isSynced last)
    (fin || isFinAccepted last) last

section

variable (receiver : Receiver iss stream delivered synced fin tcb)
include receiver

theorem Receiver.of_calm (calm : Calm tcb tcb') :
    ReceivesNext iss stream delivered synced fin tcb' := by
  have after := receiver.calm calm
  rw [ReceivesNext, after.flags.1, after.flags.2]
  exact after

theorem Receiver.unchanged : ReceivesNext iss stream delivered synced fin tcb :=
  receiver.of_calm (.of_state rfl rfl rfl)

/-- The flags in a state in which data is accepted. -/
theorem Receiver.receiving {state : TcpState} (here : tcb.state = state)
    (receives : state ≠ .closed ∧ state ≠ .synSent ∧ state.finReceived = false) :
    synced ∧ fin = false := by
  subst here
  rw [receiver.syncState receives.1, receiver.finState receives.1, receives.2.2]
  simp [receives.2.1]

theorem Receiver.handshake (synSent : tcb.state = .synSent) (recvBuf : tcb'.recvBuf = tcb.recvBuf)
    (rcvNxt : tcb'.rcvNxt = iss + 1) (established : tcb'.state = .established) :
    ReceivesNext iss stream delivered synced fin tcb' := by
  have alive : tcb.state ≠ .closed := by simp [synSent]
  have unsynced : synced = false := by simp [receiver.syncState alive, synSent]
  have unfinished : fin = false := by
    simp [receiver.finState alive, synSent, finReceived]
  have nothing := receiver.unsynced unsynced
  rw [ReceivesNext, unfinished]
  simp only [isSynced, isFinAccepted, established]
  refine ⟨?_, ?_, by simp, by simp, ?_, ?_⟩
  · rw [recvBuf]
    exact receiver.accepted
  · intro _
    rw [recvBuf, nothing, rcvNxt]
    simp
  · intro _
    simp [established, finReceived]
  · intro _
    simp [established]

end

/-- A step that takes the FIN. -/
theorem Receiver.of_finish (receiver : Receiver iss stream delivered true true tcb')
    (ok : isFinAccepted tcb') : ReceivesNext iss stream delivered true false tcb' := by
  rwa [ReceivesNext, ok]

theorem processEstablished_state (established : tcb.state = .established) :
    (tcb.processEstablished hdr data).1.state =
      if hdr.has Flag.fin then .closeWait else .established := by
  rw [processEstablished]
  dsimp only
  split
  · rfl
  · rw [takePayload_state, advanceUna_state, established]

theorem Receiver.processSegment (receiver : Receiver iss stream delivered synced fin tcb)
    (now : UInt64) (peer : PeerSegment iss stream offset hdr data)
    (near : Near (delivered ++ tcb.recvBuf).length offset data.length)
    (inOrder : hdr.has Flag.rst = false → hdr.has Flag.fin → FinInOrder tcb hdr data) :
    ReceivesNext iss stream delivered synced fin (tcb.processSegment now hdr data).1 := by
  rw [Tcb.processSegment]
  split
  · exact receiver.of_calm ⟨rfl, rfl, fun alive => absurd rfl alive⟩
  rename_i rst
  have notRst : hdr.has Flag.rst = false := by simpa using rst
  split
  case _ synSent =>
    split
    · rename_i flags
      have isSyn : hdr.has syn := by simp_all
      have seq := (peer.syn notRst isSyn).1
      exact receiver.handshake synSent rfl (by rw [seq]) rfl
    · exact receiver.unchanged
  case _ synReceived =>
    obtain ⟨rfl, rfl⟩ := receiver.receiving synReceived (by decide)
    split
    · have opened : Receiver iss stream delivered true false { tcb with
          sndUna := hdr.ackNum
          sndWnd := hdr.windowSize
          state := .established
          retransmitSeg := []
          retransmitCount := 0 } := receiver.calm
        ⟨rfl, rfl, fun _ => by simp [synReceived, finReceived]⟩
      exact (opened.takePayload peer notRst near).unchanged
    · exact receiver.unchanged
  case _ established =>
    obtain ⟨rfl, rfl⟩ := receiver.receiving established (by decide)
    have processed := receiver.processEstablished peer notRst near established (inOrder notRst)
    have state : (tcb.processEstablished hdr data).1.state = _ :=
      processEstablished_state established
    cases isFin : hdr.has fin with
    | true =>
      rw [isFin] at processed state
      exact processed.of_finish (by simp [isFinAccepted, state])
    | false =>
      rw [isFin] at processed
      exact processed.unchanged
  case _ finWait1 =>
    obtain ⟨rfl, rfl⟩ := receiver.receiving finWait1 (by decide)
    split
    · rename_i isAck
      have acked : Receiver iss stream delivered true false
          { tcb with sndUna := hdr.ackNum } := receiver.calm (.of_state rfl rfl rfl)
      split
      · rename_i isFin
        have order := inOrder notRst isFin
        rw [FinInOrder, finWait1] at order
        exact (acked.enterTimeWait peer notRst near isFin (order isAck).1 (order isAck).2
          now).of_finish rfl
      · exact receiver.of_calm
          ⟨rfl, rfl, fun _ => by simp [finWait1, finReceived]⟩
    · exact receiver.unchanged
  case _ finWait2 =>
    obtain ⟨rfl, rfl⟩ := receiver.receiving finWait2 (by decide)
    split
    · rename_i isFin
      have order := inOrder notRst isFin
      rw [FinInOrder, finWait2] at order
      have closed := receiver.enterTimeWait peer notRst near isFin order.1 order.2 now
      rw [order.1]
      exact closed.of_finish rfl
    · exact (receiver.takePayload peer notRst near).unchanged
  case _ lastAck =>
    split
    · exact receiver.of_calm ⟨rfl, rfl, fun alive => absurd rfl alive⟩
    · exact receiver.unchanged
  case _ => exact receiver.unchanged

end Segments

theorem Calm.trans {tcb'' : Tcb} (first : Calm tcb tcb') (second : Calm tcb' tcb'') :
    Calm tcb tcb'' := by
  refine ⟨second.recvBuf.trans first.recvBuf, second.rcvNxt.trans first.rcvNxt, fun alive => ?_⟩
  obtain ⟨alive', finReceived, synSent⟩ := second.state alive
  obtain ⟨alive'', finReceived', synSent'⟩ := first.state alive'
  exact ⟨alive'', finReceived.trans finReceived', synSent.trans synSent'⟩

theorem flushSendBuf_calm (now : UInt64) (tcb : Tcb) : Calm tcb (tcb.flushSendBuf now).1 := by
  fun_induction flushSendBuf now tcb with
  | case1 tcb stop => exact .of_state rfl rfl rfl
  | case2 tcb more first rest =>
    rename_i ih
    have transmitted : Calm tcb first.1 := .of_state rfl rfl rfl
    exact transmitted.trans ih

variable {last : Tcb} {now : UInt64}

theorem close_calm (kept : (tcb.close now).1 = some last) : Calm tcb last := by
  rw [close] at kept
  split at kept
  case _ state =>
    cases kept
    exact ⟨rfl, rfl, fun _ => by simp [state, finReceived]⟩
  case _ state =>
    cases kept
    exact ⟨rfl, rfl, fun _ => by simp [state, finReceived]⟩
  all_goals cases kept

theorem tickSynSent_calm (kept : (tcb.tickSynSent now).1 = some last) : Calm tcb last := by
  rw [tickSynSent] at kept
  split at kept
  · split at kept
    · cases kept
    · cases kept
      exact .of_state rfl rfl rfl
  · cases kept
    exact .of_state rfl rfl rfl

theorem timerTick_calm (kept : (tcb.timerTick now).1 = some last) : Calm tcb last := by
  rw [timerTick] at kept
  split at kept
  · split at kept
    · cases kept
    · cases kept
      exact .of_state rfl rfl rfl
  split at kept
  · cases kept
  split at kept
  · split at kept
    · cases kept
    have counted : Calm tcb { tcb with
        retransmitTick := now
        retransmitCount := tcb.retransmitCount + 1 } := .of_state rfl rfl rfl
    exact counted.trans (tickSynSent_calm kept)
  · exact tickSynSent_calm kept

/-! ## Runs -/

namespace Connection

/-- What the application sees is the peer's stream: `recv` returns a part of it from its
beginning, `rcv_nxt` counts the accepted bytes and the FIN, and the states after the FIN are
entered with the whole stream. -/
structure ReceivesStream (iss : UInt32) (stream : List UInt8) (conn : Connection) : Prop where
  delivered : conn.delivered <+: stream
  rcvNxt : ∀ tcb, conn.tcb = some tcb → conn.synced → tcb.rcvNxt =
    seqAt iss (conn.delivered ++ tcb.recvBuf).length + if conn.finAccepted then 1 else 0
  complete : ∀ tcb, conn.tcb = some tcb → tcb.state = .closeWait ∨ tcb.state = .timeWait →
    conn.delivered ++ tcb.recvBuf = stream

/-- A connection to a peer with this initial sequence number, right after it was opened. -/
inductive OpenedTo (iss : UInt32) : Connection → Prop
  | active (remoteIp : Vector UInt8 4) (remotePort localPort : UInt16) (isn : UInt32)
      (now : UInt64) :
      OpenedTo iss (start now (connect remoteIp remotePort localPort isn now))
  | passive (srcIp : Vector UInt8 4) (hdr : TcpHeader) (isn : UInt32) (now : UInt64) :
      hdr.has syn → hdr.has ack = false → hdr.seqNum = iss →
      OpenedTo iss (start now (passiveOpen srcIp hdr isn now))

/-- All segments come from the peer. -/
def FromPeer (iss : UInt32) (stream : List UInt8) (_ : Connection) : Event → Prop
  | .segment hdr data => ∃ offset, PeerSegment iss stream offset hdr data
  | _ => True

/-- The condition on a segment: it is less than a round of the sequence space away, and its
FIN is in order. -/
def SegmentInOrder (conn : Connection) (offset : ℕ) (hdr : TcpHeader) (data : List UInt8) : Prop :=
  match conn.tcb with
  | some tcb => Near (conn.delivered ++ tcb.recvBuf).length offset data.length ∧
      (hdr.has Flag.rst = false → hdr.has Flag.fin → FinInOrder tcb hdr data)
  | none => True

instance (conn : Connection) (offset : ℕ) (hdr : TcpHeader) (data : List UInt8) :
    Decidable (conn.SegmentInOrder offset hdr data) := by
  obtain ⟨_ | tcb⟩ := conn
  · exact inferInstanceAs (Decidable True)
  · exact inferInstanceAs (Decidable (_ ∧ _))

/-- All segments come from the peer and are in order where the code relies on it. -/
def InOrder (iss : UInt32) (stream : List UInt8) (conn : Connection) : Event → Prop
  | .segment hdr data =>
    ∃ offset, PeerSegment iss stream offset hdr data ∧ conn.SegmentInOrder offset hdr data
  | _ => True

/-- The invariant of a run. -/
def Receives (iss : UInt32) (stream : List UInt8) (conn : Connection) : Prop :=
  match conn.tcb with
  | some tcb => Receiver iss stream conn.delivered conn.synced conn.finAccepted tcb
  | none => conn.delivered <+: stream

variable {conn : Connection}

theorem receives_some (here : conn.tcb = some tcb) : Receives iss stream conn ↔
      Receiver iss stream conn.delivered conn.synced conn.finAccepted tcb := by
  rw [Receives, here]

theorem Receives.delivered_prefix (receives : Receives iss stream conn) :
    conn.delivered <+: stream := by
  cases here : conn.tcb with
  | none => rwa [Receives, here] at receives
  | some tcb =>
    have receiver := (receives_some here).mp receives
    exact (prefix_append _ _).trans receiver.accepted

theorem Receives.receivesStream (receives : Receives iss stream conn) :
    ReceivesStream iss stream conn where
  delivered := receives.delivered_prefix
  rcvNxt := by
    intro tcb here
    exact ((receives_some here).mp receives).next
  complete := by
    intro tcb here state
    have receiver := (receives_some here).mp receives
    apply receiver.finished
    rcases state with state | state <;>
      rw [receiver.finState (by simp [state]), state] <;> rfl

theorem OpenedTo.receives (opened : OpenedTo iss conn) : Receives iss stream conn := by
  cases opened with
  | active remoteIp remotePort localPort isn now =>
    exact ⟨⟨_, rfl⟩, by simp [start, isSynced, connect], by
      simp [start, isFinAccepted, connect], fun _ => rfl, fun _ => rfl, fun _ => rfl⟩
  | passive srcIp hdr isn now syn notAck seq =>
    refine ⟨⟨_, rfl⟩, fun _ => ?_, by
      simp [start, isFinAccepted, passiveOpen], fun _ => rfl, fun _ => rfl, fun _ => rfl⟩
    simp [start, isFinAccepted, passiveOpen, new, seq]

/-- A step that keeps the block keeps the incoming stream if the receiver's part does. -/
theorem receives_update (segs : List Segment)
    (next : ReceivesNext iss stream conn.delivered conn.synced conn.finAccepted last) :
    Receives iss stream (conn.update (some last) segs) := next

/-- A step without effect on the receiver's part, which may remove the block. -/
theorem receives_calm {last : Option Tcb} (segs : List Segment)
    (receiver : Receiver iss stream conn.delivered conn.synced conn.finAccepted tcb)
    (calm : ∀ tcb', last = some tcb' → Calm tcb tcb') :
    Receives iss stream (conn.update last segs) := by
  cases last with
  | none => exact (prefix_append _ _).trans receiver.accepted
  | some last => exact receives_update segs (receiver.of_calm (calm last rfl))

theorem recv_receives (len : ℕ) (here : conn.tcb = some tcb)
    (receiver : Receiver iss stream conn.delivered conn.synced conn.finAccepted tcb) :
    Receives iss stream (conn.stepOpen tcb (.recv len)) := by
  rw [stepOpen]
  split
  · exact (receives_some here).mpr receiver
  rename_i bytes last received
  obtain ⟨rest, split, rfl⟩ := recv_ok received
  have moved : (conn.delivered ++ bytes) ++ rest = conn.delivered ++ tcb.recvBuf := by
    rw [split, append_assoc]
  have next : Receiver iss stream (conn.delivered ++ bytes) conn.synced conn.finAccepted
      { tcb with recvBuf := rest } :=
    ⟨moved ▸ receiver.accepted, moved ▸ receiver.next, moved ▸ receiver.finished,
      moved ▸ receiver.unsynced, receiver.finState, receiver.syncState⟩
  exact next.unchanged

theorem step_receives {event : Event} (inOrder : conn.InOrder iss stream event)
    (receives : Receives iss stream conn) : Receives iss stream (conn.step event) := by
  cases here : conn.tcb with
  | none => cases event <;> simpa [step, here, Receives] using receives
  | some tcb =>
    rw [step_some here]
    have receiver := (receives_some here).mp receives
    cases event with
    | send data =>
      rw [stepOpen]
      split
      · exact receives
      rename_i n last segs ok
      obtain ⟨-, flushed⟩ := send_ok ok
      have calm := flushSendBuf_calm conn.tick
        { tcb with sendBuf := tcb.sendBuf ++ data.take n }
      rw [← flushed] at calm
      have queued : Calm tcb { tcb with sendBuf := tcb.sendBuf ++ data.take n } :=
        .of_state rfl rfl rfl
      exact receiver.of_calm (queued.trans calm)
    | recv len => exact recv_receives len here receiver
    | close => exact receives_calm _ receiver fun _ => close_calm
    | segment hdr data =>
      obtain ⟨offset, peer, order⟩ := inOrder
      rw [SegmentInOrder, here] at order
      exact receives_update _ (receiver.processSegment conn.tick peer order.1 order.2)
    | tick => exact receives_calm (tcb.timerTick conn.tick).2 receiver fun _ => timerTick_calm

/-- Along every run in which the peer's segments stay within one round of the sequence space
and a FIN is taken only in order, the application receives the peer's stream. -/
theorem run_receives_stream {conn last : Connection} {events : List Event}
    (opened : OpenedTo iss conn)
    (run : CS.Run (CS.Guarded (InOrder iss stream) Steps) conn events last) :
    ReceivesStream iss stream last := by
  have receives : Receives iss stream last :=
    run.invariant (fun {s e t} step receives => by
      obtain ⟨inOrder, rfl⟩ := step
      exact step_receives inOrder receives) opened.receives
  exact receives.receivesStream

theorem fromPeer_openedTo (window : UInt16) : OpenedTo 7 (fromPeer window) := by
  apply OpenedTo.passive
  · show (syn &&& syn != 0)
    decide
  · show (syn &&& Flag.ack != 0) = false
    decide
  · rfl

/-- Two bytes, a duplicate and the FIN, read in between. -/
theorem receives_two_bytes :
    let events : List Event := [.segment ⟨4000, 80, 8, 101, ack, 8192⟩ [1],
      .segment ⟨4000, 80, 8, 101, ack, 8192⟩ [1, 2], .recv 1,
      .segment ⟨4000, 80, 9, 101, Flag.ack ||| Flag.fin, 8192⟩ [2]]
    let last := events.foldl step (fromPeer 8192)
    last.delivered = [1] ∧ last.finAccepted ∧ ReceivesStream 7 [1, 2] last := by
  intro events last
  have run : CS.Run (CS.Guarded (InOrder 7 [1, 2]) Steps) (fromPeer 8192) events last :=
    .cons ⟨⟨0, by decide +kernel, by decide +kernel⟩, rfl⟩
      (.cons ⟨⟨0, by decide +kernel, by decide +kernel⟩, rfl⟩
        (.cons ⟨trivial, rfl⟩
          (.cons ⟨⟨1, by decide +kernel, by decide +kernel⟩, rfl⟩ (.nil _))))
  exact ⟨by decide +kernel, by decide +kernel, run_receives_stream (fromPeer_openedTo 8192) run⟩

/-- A FIN that overtakes the data is taken, and the two bytes before it are lost. -/
theorem fin_overtakes_data :
    ¬ ∀ (iss : UInt32) (stream : List UInt8) (conn last : Connection) (events : List Event),
      OpenedTo iss conn → CS.Run (CS.Guarded (FromPeer iss stream) Steps) conn events last →
      ReceivesStream iss stream last := by
  intro claim
  let events : List Event := [.segment ⟨4000, 80, 8, 101, ack, 8192⟩ [],
    .segment ⟨4000, 80, 10, 101, Flag.ack ||| fin, 8192⟩ []]
  have receives := claim 7 [1, 2] (fromPeer 8192) (events.foldl step (fromPeer 8192)) events
    (fromPeer_openedTo 8192)
    (.cons ⟨⟨0, by decide +kernel⟩, rfl⟩ (.cons ⟨⟨2, by decide +kernel⟩, rfl⟩ (.nil _)))
  have state : ((events.foldl step (fromPeer 8192)).tcb.map fun tcb =>
      (tcb.state, (events.foldl step (fromPeer 8192)).delivered ++ tcb.recvBuf)) =
      some (.closeWait, []) := by decide +kernel
  obtain ⟨tcb, here, result⟩ := Option.map_eq_some_iff.mp state
  obtain ⟨closeWait, nothing⟩ := Prod.mk.inj result
  have complete := receives.complete tcb here (.inl closeWait)
  rw [nothing] at complete
  cases complete

end Connection

end SmartOs.Net.Tcp
