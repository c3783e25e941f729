/-
# What a connection sends

The outgoing stream of a connection is what the application wrote, in order, numbered from
the byte after the initial sequence number. A segment with data should carry the bytes its
sequence number stands for, and the FIN should follow all of them.

Two things in the code break this. The timer sends the payload of the last data segment
again at the oldest unacknowledged sequence number, and the two belong together only if that
segment is all that is in flight. And `close` sends the FIN while bytes may still wait in the
send buffer, which only a later `send` would have flushed.
-/

import SmartOs.Net.Tcp

namespace SmartOs.Net.Tcp

open List hiding Vector
open Tcp.Flag

variable {iss : UInt32} {written sent : List UInt8} {emitted segs : List Segment}

/-! ## Segments and the written stream -/

/-- `seg` carries the written bytes from `offset` on. -/
def CarriesAt (iss : UInt32) (written : List UInt8) (seg : Segment) (offset : ℕ) : Prop :=
  seg.seq = seqAt iss offset ∧ seg.payload <+: written.drop offset

/-- The written byte at position `i` is in one of the segments. -/
def Transmitted (iss : UInt32) (written : List UInt8) (segs : List Segment) (i : ℕ) : Prop :=
  ∃ seg ∈ segs, ∃ offset, CarriesAt iss written seg offset ∧
    offset ≤ i ∧ i < offset + seg.payload.length

/-- The segments of a connection are faithful to what was written: data is sent under its own
sequence number, and a FIN only after every accepted byte. -/
structure SendsWritten (iss : UInt32) (written : List UInt8) (emitted : List Segment) :
    Prop where
  data : ∀ seg ∈ emitted, seg.payload ≠ [] → ∃ offset, CarriesAt iss written seg offset
  fin : ∀ k seg, emitted[k]? = some seg → seg.has fin →
    ∀ i < written.length, Transmitted iss written (emitted.take k) i

theorem CarriesAt.append {seg : Segment} {offset : ℕ} (carries : CarriesAt iss written seg offset)
    (more : List UInt8) : CarriesAt iss (written ++ more) seg offset := by
  refine ⟨carries.1, carries.2.trans ?_⟩
  rw [drop_append]
  exact prefix_append _ _

theorem Transmitted.append {i : ℕ} (transmitted : Transmitted iss written segs i)
    (more : List UInt8) : Transmitted iss (written ++ more) segs i := by
  obtain ⟨seg, mem, offset, carries, range⟩ := transmitted
  exact ⟨seg, mem, offset, carries.append more, range⟩

theorem Transmitted.mono {segs' : List Segment} {i : ℕ}
    (transmitted : Transmitted iss written segs i) (sub : segs ⊆ segs') :
    Transmitted iss written segs' i := by
  obtain ⟨seg, mem, rest⟩ := transmitted
  exact ⟨seg, sub mem, rest⟩

section

variable (sends : SendsWritten iss written emitted)
include sends

/-- Segments may be added that carry data truthfully, with a FIN only once everything written has
been transmitted. -/
theorem SendsWritten.append
    (data : ∀ seg ∈ segs, seg.payload ≠ [] → ∃ offset, CarriesAt iss written seg offset)
    (fin : ∀ seg ∈ segs, seg.has Flag.fin → ∀ i < written.length,
      Transmitted iss written emitted i) : SendsWritten iss written (emitted ++ segs) where
  data := forall_mem_append.mpr ⟨sends.data, data⟩
  fin := by
    intro k seg here isFin i bound
    rw [getElem?_append] at here
    split at here
    · rename_i old
      rw [take_append_of_le_length (le_of_lt old)]
      exact sends.fin k seg here isFin i bound
    · rw [take_append, take_of_length_le (by omega)]
      exact (fin seg (mem_of_getElem? here) isFin i bound).mono fun _ => mem_append_left _

theorem SendsWritten.add_data {seg : Segment} {offset : ℕ}
    (carries : CarriesAt iss written seg offset) (finless : seg.has Flag.fin = false) :
    SendsWritten iss written (emitted ++ [seg]) :=
  sends.append (forall_mem_singleton.mpr fun _ => ⟨offset, carries⟩)
    (forall_mem_singleton.mpr fun isFin => absurd isFin (by simp [finless]))

theorem SendsWritten.add_fin {fin : Segment} (empty : fin.payload = [])
    (transmitted : ∀ i < written.length, Transmitted iss written emitted i) :
    SendsWritten iss written (emitted ++ [fin]) :=
  sends.append (forall_mem_singleton.mpr fun carrying => absurd empty carrying)
    fun _ _ _ => transmitted

theorem SendsWritten.write (finless : ∀ seg ∈ emitted, seg.has Flag.fin = false)
    (more : List UInt8) : SendsWritten iss (written ++ more) emitted where
  data := by
    intro seg mem carrying
    obtain ⟨offset, carries⟩ := sends.data seg mem carrying
    exact ⟨offset, carries.append more⟩
  fin := by
    intro k seg here isFin
    exact absurd isFin (by simp [finless seg (mem_of_getElem? here)])

end

/-! ## The sender's part of a block -/

/-- The states in which the FIN of the outgoing stream has been sent. -/
def TcpState.finSent : TcpState → Bool
  | .finWait1 | .finWait2 | .lastAck | .timeWait => true
  | _ => false

/-- The place of the FIN in sequence space, once it has been sent. -/
def TcpState.finLength (state : TcpState) : UInt32 := if state.finSent then 1 else 0

/-- `sent` is the part of the written bytes that has left the send buffer. -/
structure Sender (iss : UInt32) (written sent : List UInt8) (emitted : List Segment)
    (tcb : Tcb) : Prop where
  queued : written = sent ++ tcb.sendBuf
  next : tcb.state ≠ .closed → tcb.sndNxt = seqAt iss sent.length + tcb.state.finLength
  held : tcb.retransmitSeg <:+ sent
  transmitted : ∀ i < sent.length, Transmitted iss written emitted i
  finless : tcb.state ≠ .closed → tcb.state.finSent = false →
    ∀ seg ∈ emitted, seg.has fin = false

/-- Segments outside the outgoing stream. -/
def Plain (segs : List Segment) : Prop :=
  ∀ seg ∈ segs, seg.payload = [] ∧ seg.has fin = false

/-- A change that leaves the outgoing stream alone: nothing is written or sent, and the FIN is
neither sent nor forgotten. -/
structure Quiet (tcb tcb' : Tcb) (segs : List Segment) : Prop where
  sendBuf : tcb'.sendBuf = tcb.sendBuf
  sndNxt : tcb'.sndNxt = tcb.sndNxt
  retransmitSeg : tcb'.retransmitSeg = tcb.retransmitSeg ∨ tcb'.retransmitSeg = []
  state : tcb'.state ≠ .closed →
    tcb.state ≠ .closed ∧ tcb'.state.finSent = tcb.state.finSent
  plain : Plain segs

theorem Sender.quiet {tcb tcb' : Tcb} (sender : Sender iss written sent emitted tcb)
    (quiet : Quiet tcb tcb' segs) : Sender iss written sent (emitted ++ segs) tcb' where
  queued := by
    rw [quiet.sendBuf]
    exact sender.queued
  next := by
    intro alive
    obtain ⟨alive, same⟩ := quiet.state alive
    rw [quiet.sndNxt, sender.next alive, TcpState.finLength, TcpState.finLength, same]
  held := by
    rcases quiet.retransmitSeg with same | cleared
    · rw [same]
      exact sender.held
    · rw [cleared]
      exact nil_suffix
  transmitted := fun i bound => (sender.transmitted i bound).mono (subset_append_left _ _)
  finless := by
    intro alive notSent
    obtain ⟨alive, same⟩ := quiet.state alive
    exact forall_mem_append.mpr ⟨sender.finless alive (same ▸ notSent),
      fun seg new => (quiet.plain seg new).2⟩

theorem SendsWritten.add_plain (sends : SendsWritten iss written emitted)
    (plain : Plain segs) : SendsWritten iss written (emitted ++ segs) := by
  apply sends.append
  · intro seg mem carrying
    exact absurd (plain seg mem).1 carrying
  · intro seg mem isFin
    exact absurd isFin (by simp [(plain seg mem).2])

/-! ## Events that leave the stream alone -/

@[simp]
theorem Plain.nil : Plain [] := by
  simp [Plain]

theorem Tcb.sendTcpRaw_plain (tcb : Tcb) (seq ack : UInt32) {flags : UInt8} (window : UInt16)
    (finless : (flags &&& fin != 0) = false) : Plain [tcb.sendTcpRaw seq ack flags window []] :=
  forall_mem_singleton.mpr ⟨rfl, finless⟩

namespace Quiet

variable {a b c : Tcb} {segs' : List Segment}

theorem refl (tcb : Tcb) : Quiet tcb tcb [] := by
  constructor <;> simp

theorem trans (first : Quiet a b segs) (second : Quiet b c segs') : Quiet a c (segs ++ segs') where
  sendBuf := second.sendBuf.trans first.sendBuf
  sndNxt := second.sndNxt.trans first.sndNxt
  retransmitSeg := by
    rcases second.retransmitSeg with same | cleared
    · rw [same]
      exact first.retransmitSeg
    · exact .inr cleared
  state := by
    intro alive
    obtain ⟨aliveB, sameB⟩ := second.state alive
    obtain ⟨aliveA, sameA⟩ := first.state aliveB
    exact ⟨aliveA, sameB.trans sameA⟩
  plain := forall_mem_append.mpr ⟨first.plain, second.plain⟩

theorem ack (quiet : Quiet a b segs) : Quiet a b (segs ++ [b.ackSegment]) := by
  apply quiet.trans
  exact ⟨rfl, rfl, .inl rfl, fun alive => ⟨alive, rfl⟩, b.sendTcpRaw_plain _ _ _ (by decide)⟩

theorem ack_only (quiet : Quiet a b []) : Quiet a b [b.ackSegment] := quiet.ack

theorem after_silent (first : Quiet a b []) (second : Quiet b c segs) : Quiet a c segs :=
  first.trans second

end Quiet

namespace Tcb

variable (tcb : Tcb)

theorem acceptData_quiet (seq : UInt32) (data : List UInt8) :
    Quiet tcb (tcb.acceptData seq data).1 (tcb.acceptData seq data).2 := by
  apply Quiet.ack_only
  rw [acceptData]
  split
  · constructor <;> simp
  · exact .refl tcb

variable (hdr : TcpHeader) (data : List UInt8)

theorem takePayload_quiet : Quiet tcb (tcb.takePayload hdr data).1 (tcb.takePayload hdr
    data).2 := by
  rw [takePayload]
  split
  · exact acceptData_quiet tcb hdr.seqNum data
  · exact .refl tcb

theorem advanceUna_quiet : Quiet tcb (tcb.advanceUna hdr) [] := by
  rw [advanceUna]
  split
  · constructor <;> simp <;> grind
  · exact .refl tcb

theorem acceptData_state (seq : UInt32) (data : List UInt8) :
    (tcb.acceptData seq data).1.state = tcb.state := by
  simp only [acceptData]
  split <;> rfl

theorem takePayload_state : (tcb.takePayload hdr data).1.state = tcb.state := by
  rw [takePayload]
  split
  · exact acceptData_state tcb hdr.seqNum data
  · rfl

theorem advanceUna_state : (tcb.advanceUna hdr).state = tcb.state := by
  rw [advanceUna]
  split
  · dsimp only
    split <;> rfl
  · rfl

theorem processEstablished_quiet {tcb : Tcb} (established : tcb.state = .established) : Quiet tcb
    (tcb.processEstablished hdr data).1 (tcb.processEstablished hdr data).2 := by
  have taken : Quiet tcb ((tcb.advanceUna hdr).takePayload hdr data).1
      ((tcb.advanceUna hdr).takePayload hdr data).2 :=
    (advanceUna_quiet tcb hdr).trans (takePayload_quiet _ hdr data)
  rw [processEstablished]
  dsimp only
  split
  · apply Quiet.ack
    exact ⟨taken.sendBuf, taken.sndNxt, taken.retransmitSeg,
      fun _ => by simp [established, TcpState.finSent], taken.plain⟩
  · exact taken

theorem enterTimeWait_quiet {tcb : Tcb} (now : UInt64) (hdr : TcpHeader)
    (finSent : tcb.state.finSent) : Quiet tcb (tcb.enterTimeWait now hdr) [] := by
  refine ⟨rfl, rfl, .inl rfl, fun _ => ⟨?_, finSent.symm⟩, .nil⟩
  intro closed
  simp [closed, TcpState.finSent] at finSent

/-- An incoming segment never touches the outgoing stream. It can only clear the payload held
for retransmission. -/
theorem processSegment_quiet (now : UInt64) (tcb : Tcb) (hdr : TcpHeader) (data : List UInt8) :
    Quiet tcb (tcb.processSegment now hdr data).1 (tcb.processSegment now hdr data).2 := by
  rw [processSegment]
  split
  · constructor <;> simp
  split
  case _ synSent =>
    split
    · apply Quiet.ack_only
      constructor <;> simp [synSent, TcpState.finSent]
    · exact .refl tcb
  case _ synReceived =>
    split
    · refine Quiet.after_silent ?_ (takePayload_quiet _ hdr data)
      constructor <;> simp [synReceived, TcpState.finSent]
    · exact .refl tcb
  case _ established => exact processEstablished_quiet hdr data established
  case _ finWait1 =>
    split
    · split
      · apply Quiet.ack_only
        refine Quiet.after_silent (b := { tcb with sndUna := hdr.ackNum }) ?_
          (enterTimeWait_quiet now hdr (by simp [finWait1, TcpState.finSent]))
        constructor <;> simp
      · constructor <;> simp [finWait1, TcpState.finSent]
    · exact .refl tcb
  case _ finWait2 =>
    split
    · have entered := @enterTimeWait_quiet tcb now hdr
        (by simp [finWait2, TcpState.finSent])
      exact entered.ack_only.trans (takePayload_quiet _ hdr data)
    · exact takePayload_quiet tcb hdr data
  case _ lastAck =>
    split
    · constructor <;> simp
    · exact .refl tcb
  case _ => exact .refl tcb

theorem tickSynSent_quiet (now : UInt64) (tcb : Tcb) : Plain (tcb.tickSynSent now).2 ∧
      ∀ last, (tcb.tickSynSent now).1 = some last → Quiet tcb last (tcb.tickSynSent now).2 := by
  rw [tickSynSent]
  split
  · split
    · simp
    have plain : Plain [tcb.sendTcpRaw tcb.sndUna 0 syn windowSize []] :=
      tcb.sendTcpRaw_plain _ _ _ (by decide)
    refine ⟨plain, ?_⟩
    rintro last ⟨⟩
    exact ⟨rfl, rfl, .inl rfl, fun alive => ⟨alive, rfl⟩, plain⟩
  · refine ⟨.nil, ?_⟩
    rintro last ⟨⟩
    exact .refl tcb

end Tcb

/-! ## Sending data -/

section Transmission

variable {tcb : Tcb}

/-- The block's sender part and the segments it has sent. -/
def SendsFrom (iss : UInt32) (written : List UInt8) (emitted : List Segment) (tcb : Tcb) : Prop :=
  SendsWritten iss written emitted ∧ ∃ sent, Sender iss written sent emitted tcb

theorem transmit_finless (now : UInt64) (n : ℕ) : (tcb.transmit now n).2.has fin = false := by
  show ((Flag.ack ||| psh) &&& fin != 0) = false
  decide

section

variable (alive : tcb.state ≠ .closed) (notSent : tcb.state.finSent = false)

include alive notSent

/-- A first transmission carries the bytes right after those already sent. -/
theorem Sender.transmit_carries (sender : Sender iss written sent emitted tcb) (now : UInt64)
    (n : ℕ) : CarriesAt iss written (tcb.transmit now n).2 sent.length := by
  constructor
  · have next := sender.next alive
    rwa [TcpState.finLength, notSent, if_neg Bool.false_ne_true, UInt32.add_zero] at next
  · rw [sender.queued, drop_left]
    exact take_prefix n tcb.sendBuf

theorem Sender.transmit (sender : Sender iss written sent emitted tcb) (now : UInt64) {n : ℕ}
    (enough : n ≤ tcb.sendBuf.length) :
    Sender iss written (sent ++ tcb.sendBuf.take n) (emitted ++ [(tcb.transmit now n).2])
      (tcb.transmit now n).1 where
  queued := by
    rw [sender.queued, append_assoc]
    exact congrArg (sent ++ ·) (take_append_drop n tcb.sendBuf).symm
  next := by
    intro _
    have next := sender.next alive
    have taken : (tcb.sendBuf.take n).length = n := length_take_of_le enough
    simp [Tcb.transmit, next, TcpState.finLength, notSent, taken, seqAt_add]
  held := suffix_append _ _
  transmitted := by
    intro i bound
    by_cases old : i < sent.length
    · exact (sender.transmitted i old).mono (subset_append_left _ _)
    refine ⟨_, mem_append_right _ (mem_singleton_self _), sent.length,
      sender.transmit_carries alive notSent now n, not_lt.mp old, ?_⟩
    simpa [Tcb.transmit, Tcb.sendTcpRaw] using bound
  finless := fun _ _ => forall_mem_append.mpr ⟨sender.finless alive notSent,
    forall_mem_singleton.mpr (transmit_finless now n)⟩

theorem SendsFrom.transmit (sends : SendsFrom iss written emitted tcb) (now : UInt64) {n : ℕ}
    (enough : n ≤ tcb.sendBuf.length) :
    SendsFrom iss written (emitted ++ [(tcb.transmit now n).2]) (tcb.transmit now n).1 := by
  obtain ⟨faithful, sent, sender⟩ := sends
  have carries := sender.transmit_carries alive notSent now n
  exact ⟨faithful.add_data carries (transmit_finless now n), _,
    sender.transmit alive notSent now enough⟩

theorem SendsFrom.flushSendBuf (now : UInt64) (sends : SendsFrom iss written emitted tcb) :
    SendsFrom iss written (emitted ++ (tcb.flushSendBuf now).2) (tcb.flushSendBuf now).1 := by
  -- induction on the rounds of the loop; the segments of each round join those already sent
  fun_induction Tcb.flushSendBuf now tcb generalizing emitted with
  | case1 tcb stop =>
    rw [append_nil]
    exact sends
  | case2 tcb more first rest =>
    rename_i ih
    have round : SendsFrom iss written (emitted ++ [first.2]) first.1 :=
      sends.transmit alive notSent now (min_le_left _ _)
    have later := ih alive notSent round
    rwa [append_assoc] at later

theorem SendsFrom.queue (sends : SendsFrom iss written emitted tcb) (data : List UInt8) :
    SendsFrom iss (written ++ data) emitted { tcb with sendBuf := tcb.sendBuf ++ data } := by
  obtain ⟨faithful, sent, sender⟩ := sends
  have finless := sender.finless alive notSent
  refine ⟨faithful.write finless data, sent, ?_, sender.next, sender.held, ?_, sender.finless⟩
  · rw [sender.queued, append_assoc]
  · intro i bound
    exact (sender.transmitted i bound).append data

end

/-- A block with which the outgoing stream is right, if there is one. -/
def SendsOption (iss : UInt32) (written : List UInt8) (emitted : List Segment) : Option Tcb → Prop
  | none => SendsWritten iss written emitted
  | some tcb => SendsFrom iss written emitted tcb

theorem SendsOption.faithful {tcb : Option Tcb}
    (sends : SendsOption iss written emitted tcb) : SendsWritten iss written emitted := by
  cases tcb with
  | none => exact sends
  | some tcb => exact sends.1

theorem SendsFrom.quiet {tcb last : Tcb} (sends : SendsFrom iss written emitted tcb)
    (quiet : Quiet tcb last segs) : SendsFrom iss written (emitted ++ segs) last := by
  obtain ⟨faithful, sent, sender⟩ := sends
  exact ⟨faithful.add_plain quiet.plain, sent, sender.quiet quiet⟩

end Transmission

/-! ## Runs -/

namespace Tcb

/-- The timer sends data again in this tick. -/
def Retransmits (now : UInt64) (tcb : Tcb) : Prop :=
  tcb.state ≠ .timeWait ∧ tcb.state ≠ .closed ∧ tcb.TimedOut now ∧
    tcb.retransmitCount < maxRetransmits
  deriving Decidable

/-- The payload held for retransmission is all that is unacknowledged, the FIN apart. -/
def AloneInFlight (tcb : Tcb) : Prop :=
  tcb.sndUna + .ofNat tcb.retransmitSeg.length + tcb.state.finLength = tcb.sndNxt
  deriving Decidable

/-- `close` would send a FIN. -/
def ClosesStream (tcb : Tcb) : Prop := tcb.state = .established ∨ tcb.state = .closeWait
  deriving Decidable

/-- What an event needs of the block so that the outgoing stream stays right. -/
def StreamSafe (now : UInt64) (tcb : Tcb) : Event → Prop
  | .close => tcb.ClosesStream → tcb.sendBuf = []
  | .tick => tcb.Retransmits now → tcb.AloneInFlight
  | _ => True

instance (now : UInt64) (tcb : Tcb) (event : Event) : Decidable (tcb.StreamSafe now event) := by
  cases event <;> unfold StreamSafe <;> infer_instance

section

variable {tcb : Tcb} (sender : Sender iss written sent emitted tcb)

include sender

theorem sndUna_of_alone (alive : tcb.state ≠ .closed) (alone : tcb.AloneInFlight) :
    tcb.sndUna = seqAt iss (sent.length - tcb.retransmitSeg.length) := by
  have length := sender.held.length_le
  have total : seqAt iss sent.length =
      seqAt iss (sent.length - tcb.retransmitSeg.length) + .ofNat tcb.retransmitSeg.length := by
    rw [← seqAt_add, Nat.sub_add_cancel length]
  have next := sender.next alive
  rw [← alone] at next
  grind

/-- The sent bytes end with the payload held back. -/
theorem held_at : tcb.retransmitSeg <+: written.drop (sent.length - tcb.retransmitSeg.length) := by
  obtain ⟨earlier, split⟩ := sender.held
  rw [sender.queued, ← split, length_append, Nat.add_sub_cancel, append_assoc, drop_left]
  exact prefix_append _ _

/-- A retransmission of the only segment in flight repeats its bytes under their number. -/
theorem retransmission_carries (alive : tcb.state ≠ .closed) (alone : tcb.AloneInFlight) :
    CarriesAt iss written tcb.retransmission (sent.length - tcb.retransmitSeg.length) :=
  ⟨sndUna_of_alone sender alive alone, held_at sender⟩

end

variable {tcb : Tcb} (sends : SendsFrom iss written emitted tcb)

include sends

theorem finSegment_sends (closes : tcb.ClosesStream)
    (flushed : tcb.sendBuf = []) {state : TcpState} (finSent : state.finSent) (now : UInt64) :
    SendsFrom iss written (emitted ++ [tcb.finSegment])
      { tcb with sndNxt := tcb.sndNxt + 1, state := state, retransmitTick := now } := by
  obtain ⟨faithful, sent, sender⟩ := sends
  obtain ⟨alive, notSent⟩ : tcb.state ≠ .closed ∧ tcb.state.finSent = false := by
    rcases closes with state | state <;> simp [state, TcpState.finSent]
  have all : written = sent := by
    rw [sender.queued, flushed, append_nil]
  have next := sender.next alive
  rw [TcpState.finLength, notSent, if_neg Bool.false_ne_true, UInt32.add_zero] at next
  refine ⟨faithful.add_fin rfl (all ▸ sender.transmitted), sent, sender.queued, ?_, sender.held,
    ?_, ?_⟩
  · intro _
    rw [TcpState.finLength, if_pos finSent, next]
  · intro i bound
    exact (sender.transmitted i bound).mono (subset_append_left _ _)
  · intro _ unsent
    exact absurd finSent (by simp [unsent])

theorem close_sends (now : UInt64) (flushed : tcb.ClosesStream → tcb.sendBuf = []) :
    SendsOption iss written (emitted ++ (tcb.close now).2) (tcb.close now).1 := by
  rw [close]
  split
  case _ established =>
    exact finSegment_sends sends (.inl established) (flushed (.inl established)) rfl now
  case _ closeWait =>
    exact finSegment_sends sends (.inr closeWait) (flushed (.inr closeWait)) rfl
      tcb.retransmitTick
  iterate 2
    · exact sends.1.add_plain (tcb.sendTcpRaw_plain _ _ _ (by decide))
  · exact sends.1.add_plain .nil

theorem tickSynSent_sends (now : UInt64) :
    SendsOption iss written (emitted ++ (tcb.tickSynSent now).2) (tcb.tickSynSent now).1 := by
  obtain ⟨plain, quiet⟩ := tcb.tickSynSent_quiet now
  cases kept : (tcb.tickSynSent now).1 with
  | none => exact sends.1.add_plain plain
  | some last => exact sends.quiet (quiet last kept)

/-- The retransmission joins the segments sent, under the condition on what is in flight. -/
theorem retransmission_sends (alive : tcb.state ≠ .closed) (alone : tcb.AloneInFlight) :
    SendsFrom iss written (emitted ++ [tcb.retransmission]) tcb := by
  obtain ⟨faithful, sent, sender⟩ := sends
  have finless : tcb.retransmission.has fin = false := by
    show ((Flag.ack ||| psh) &&& fin != 0) = false
    decide
  refine ⟨faithful.add_data (retransmission_carries sender alive alone) finless, sent,
    sender.queued, sender.next, sender.held, ?_, ?_⟩
  · intro i bound
    exact (sender.transmitted i bound).mono (subset_append_left _ _)
  · intro alive notSent
    exact forall_mem_append.mpr ⟨sender.finless alive notSent, forall_mem_singleton.mpr finless⟩

theorem timerTick_sends (now : UInt64) (alone : tcb.Retransmits now → tcb.AloneInFlight) :
    SendsOption iss written (emitted ++ (tcb.timerTick now).2) (tcb.timerTick now).1 := by
  rw [timerTick]
  split
  · rw [append_nil]
    split
    · exact sends.1
    · exact sends
  rename_i notTimeWait
  split
  · exact sends.1.add_plain .nil
  rename_i alive
  split
  · rename_i timedOut
    split
    · exact sends.1.add_plain (tcb.sendTcpRaw_plain _ _ _ (by decide))
    rename_i again
    have resent := retransmission_sends sends alive
      (alone ⟨notTimeWait, alive, timedOut, UInt8.not_le.mp again⟩)
    have counted : Quiet tcb { tcb with
        retransmitTick := now
        retransmitCount := tcb.retransmitCount + 1 } [] :=
      ⟨rfl, rfl, .inl rfl, fun alive => ⟨alive, rfl⟩, .nil⟩
    have ticked := tickSynSent_sends (resent.quiet counted) now
    rw [append_nil, append_assoc] at ticked
    exact ticked
  · exact tickSynSent_sends sends now

end Tcb

namespace Connection

/-- The condition of `Tcb.StreamSafe` on a connection. -/
def StreamSafe (conn : Connection) (event : Event) : Prop :=
  match conn.tcb with
  | some tcb => tcb.StreamSafe conn.tick event
  | none => True

instance (conn : Connection) (event : Event) : Decidable (conn.StreamSafe event) := by
  unfold StreamSafe
  split <;> infer_instance

/-- The connection right after `connect`, or after a SYN to a listening port. -/
inductive Opened (iss : UInt32) : Connection → Prop
  | active (remoteIp : Vector UInt8 4) (remotePort localPort : UInt16) (now : UInt64) :
      Opened iss (start now (Tcb.connect remoteIp remotePort localPort iss now))
  | passive (srcIp : Vector UInt8 4) (hdr : TcpHeader) (now : UInt64) :
      hdr.has syn → hdr.has ack = false →
      Opened iss (start now (Tcb.passiveOpen srcIp hdr iss now))

/-- The outgoing stream of a connection is right. -/
def Sends (iss : UInt32) (conn : Connection) : Prop :=
  SendsOption iss conn.written conn.emitted conn.tcb

/-- Nothing has been written, and the handshake is not part of the stream. -/
theorem sends_start {opened : Tcb × List Segment} (now : UInt64) (plain : Plain opened.2)
    (sendBuf : opened.1.sendBuf = []) (retransmitSeg : opened.1.retransmitSeg = [])
    (next : opened.1.sndNxt = iss + 1) (notSent : opened.1.state.finSent = false) :
    Sends iss (start now opened) := by
  have nothing : SendsWritten iss [] [] := ⟨by simp, by simp⟩
  refine ⟨nothing.add_plain plain, [], ?_, ?_, ?_, by simp, ?_⟩
  · exact sendBuf.symm
  · intro _
    simp [next, TcpState.finLength, notSent]
  · exact retransmitSeg.symm ▸ suffix_rfl
  · intro _ _ seg mem
    exact (plain seg mem).2

variable {conn : Connection}

theorem Opened.sends (opened : Opened iss conn) : Sends iss conn := by
  cases opened with
  | active | passive =>
    exact sends_start _ (Tcb.sendTcpRaw_plain _ _ _ _ (by decide)) rfl rfl rfl rfl

theorem send_sends {tcb : Tcb} (data : List UInt8)
    (sends : SendsFrom iss conn.written conn.emitted tcb) (here : conn.tcb = some tcb) :
    Sends iss (conn.stepOpen tcb (.send data)) := by
  rw [stepOpen]
  split
  · rw [Sends, here]
    exact sends
  rename_i n last segs ok
  obtain ⟨open_, flushed⟩ := Tcb.send_ok ok
  obtain ⟨alive, notSent⟩ : tcb.state ≠ .closed ∧ tcb.state.finSent = false := by
    rcases open_ with state | state <;> simp [state, TcpState.finSent]
  have queued := sends.queue alive notSent (data.take n)
  have done := queued.flushSendBuf (by exact alive) (by exact notSent) conn.tick
  rw [← flushed] at done
  exact done

theorem step_sends {event : Event} (safe : conn.StreamSafe event) (sends : Sends iss conn) :
    Sends iss (conn.step event) := by
  cases here : conn.tcb with
  | none => cases event <;> simpa [step, here, Sends] using sends
  | some tcb =>
    rw [step_some here]
    rw [StreamSafe, here] at safe
    have sendsFrom : SendsFrom iss conn.written conn.emitted tcb := by
      rwa [Sends, here] at sends
    cases event with
    | send data => exact send_sends data sendsFrom here
    | recv len =>
      rw [stepOpen]
      split
      · exact sends
      rename_i bytes last received
      obtain ⟨rest, -, rfl⟩ := Tcb.recv_ok received
      exact sendsFrom.quiet
        ⟨rfl, rfl, .inl rfl, fun alive => ⟨alive, rfl⟩, .nil⟩
    | close => exact Tcb.close_sends sendsFrom conn.tick safe
    | segment hdr data =>
      exact sendsFrom.quiet (tcb.processSegment_quiet conn.tick hdr data)
    | tick => exact Tcb.timerTick_sends sendsFrom conn.tick safe

/-- Along every run in which `close` finds the send buffer empty and data is sent again only
while nothing else is in flight, a connection sends what was written: each data segment
carries the bytes of its sequence number, and a FIN follows all accepted bytes. -/
theorem run_sends_written {conn last : Connection} {events : List Event}
    (opened : Opened iss conn) (run : CS.Run (CS.Guarded StreamSafe Steps) conn events last) :
    SendsWritten iss last.written last.emitted := by
  have sends : Sends iss last :=
    run.invariant (fun {s e t} step sends => by
      obtain ⟨safe, rfl⟩ := step
      exact step_sends safe sends) opened.sends
  exact sends.faithful

/-- A connection opened by a peer that offers a window, with 100 as our sequence number. -/
def fromPeer (window : UInt16) : Connection :=
  start 0 (Tcb.passiveOpen #v[10, 0, 2, 2] ⟨4000, 80, 7, 0, Flag.syn, window⟩ 100 0)

theorem fromPeer_opened (window : UInt16) : Opened 100 (fromPeer window) := by
  apply Opened.passive
  · show (syn &&& syn != 0)
    decide
  · show (syn &&& Flag.ack != 0) = false
    decide

/-- Two bytes written and then closed over an open window. -/
theorem sends_two_bytes :
    let events := [.segment ⟨4000, 80, 8, 101, ack, 8192⟩ [], .send [1, 2], .tick, .close]
    let last := events.foldl step (fromPeer 8192)
    last.written = [1, 2] ∧ SendsWritten 100 last.written last.emitted := by
  intro events last
  have run : CS.Run (CS.Guarded StreamSafe Steps) (fromPeer 8192) events last :=
    CS.Run.guarded_of_foldlM (by decide +kernel)
  exact ⟨by decide +kernel, run_sends_written (fromPeer_opened 8192) run⟩

/-- With a closed window the byte stays in the send buffer and `close` sends the FIN. -/
theorem close_sends_fin_early :
    ¬ ∀ (iss : UInt32) (conn last : Connection) (events : List Event), Opened iss conn →
      CS.Run Steps conn events last → SendsWritten iss last.written last.emitted := by
  intro claim
  let events : List Event := [.segment ⟨4000, 80, 8, 101, ack, 0⟩ [], .send [1], .close]
  have sends := claim 100 (fromPeer 0) (events.foldl step (fromPeer 0)) events
    (fromPeer_opened 0) (.cons rfl (.cons rfl (.cons rfl (.nil _))))
  have written : (events.foldl step (fromPeer 0)).written = [1] := by decide +kernel
  have emitted : ((events.foldl step (fromPeer 0)).emitted[1]?.map (·.has fin)) =
      some true := by decide +kernel
  have before : ((events.foldl step (fromPeer 0)).emitted.take 1).map (·.payload) = [[]] := by
    decide +kernel
  obtain ⟨fin, here, isFin⟩ := Option.map_eq_some_iff.mp emitted
  obtain ⟨seg, mem, offset, -, low, high⟩ := sends.fin 1 fin here isFin 0 (by simp [written])
  have empty := mem_map_of_mem (f := (·.payload)) mem
  rw [before, mem_singleton] at empty
  rw [empty, length_nil] at high
  omega

end Connection

end SmartOs.Net.Tcp
