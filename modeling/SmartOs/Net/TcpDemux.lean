/-
# Demultiplexing

Segments find their socket by the remote address, the remote port and the local port, and `accept`
hands out the sockets that incoming SYNs have made. That is sound as long as three things do not
happen, none of which the code rules out: a `connect` to addresses that a socket has already, a
SYN to a port whose queue is full, and the removal of a socket that is still in a queue.

Each of them breaks soundness, the last one once `accept` gets to the socket. So a sequence of
events is sound, whatever calls of `accept` interrupt it, exactly if none of them happens in it.
-/

import SmartOs.CS.Extents
import SmartOs.Net.TcpTable

namespace SmartOs.Net.Tcp

open CS List Function Tcb

variable {segs : List Segment} {srcIp : Ipv4Addr} {hdr : TcpHeader} {sock' : Socket} {event : Event}
  {t : Stack} {tcb : Tcb} {i : ℕ}

/-! ## Addresses of a connection -/

/-- By what a segment finds the block. -/
def Tcb.key (tcb : Tcb) : Ipv4Addr × UInt16 × UInt16 :=
  (tcb.remoteIp, tcb.remotePort, tcb.localPort)

variable {remotePort localPort : UInt16} {remoteIp : Ipv4Addr}

namespace Tcb

variable {tcb last : Tcb} {now : UInt64}

theorem matches_iff :
    tcb.Matches remoteIp remotePort localPort ↔ tcb.key = (remoteIp, remotePort, localPort) := by
  simp [Matches, key]

theorem localPort_eq_of_key_eq {tcb' : Tcb} (same : tcb.key = tcb'.key) :
    tcb.localPort = tcb'.localPort := congrArg (·.2.2) same

@[simp] theorem key_flushSendBuf : (flushSendBuf now tcb).1.key = tcb.key := by
  fun_induction flushSendBuf now tcb with
  | case1 tcb stop => rfl
  | case2 tcb go first rest ih => exact ih

@[simp] theorem key_acceptData (seq : UInt32) (data : List UInt8) :
    (tcb.acceptData seq data).1.key = tcb.key := by
  unfold acceptData
  split <;> rfl

@[simp] theorem key_takePayload (tcb : Tcb) (hdr : TcpHeader) (data : List UInt8) :
    (tcb.takePayload hdr data).1.key = tcb.key := by
  unfold takePayload
  split
  · exact key_acceptData ..
  · rfl

@[simp] theorem key_advanceUna (tcb : Tcb) (hdr : TcpHeader) :
    (tcb.advanceUna hdr).key = tcb.key := by
  unfold advanceUna
  split
  · split <;> rfl
  · rfl

theorem key_processEstablished (tcb : Tcb) (hdr : TcpHeader) (data : List UInt8) :
    (tcb.processEstablished hdr data).1.key = tcb.key := by
  have taken := key_takePayload (tcb.advanceUna hdr) hdr data
  rw [key_advanceUna] at taken
  unfold processEstablished
  dsimp only
  split <;> exact taken

theorem key_processSegment (hdr : TcpHeader) (data : List UInt8) :
    (tcb.processSegment now hdr data).1.key = tcb.key := by
  unfold processSegment
  split
  · rfl
  split
  · split <;> rfl
  · split
    · exact key_takePayload ..
    · rfl
  · exact key_processEstablished ..
  · split
    · split <;> rfl
    · rfl
  · split <;> exact key_takePayload ..
  · split <;> rfl
  · rfl

theorem key_send {data : List UInt8} {n : ℕ}
    (sent : tcb.send now data = .ok (n, last, segs)) : last.key = tcb.key := by
  have flushed := congrArg Prod.fst (send_ok sent).2
  rw [show last = _ from flushed, key_flushSendBuf]
  rfl

theorem key_recv {len : ℕ} {bytes : List UInt8} (received : tcb.recv len = .ok (bytes, last)) :
    last.key = tcb.key := by
  obtain ⟨rest, -, rfl⟩ := recv_ok received
  rfl

/-- `close` removes the socket at once. -/
def Removable (tcb : Tcb) : Prop := tcb.state ≠ .established ∧ tcb.state ≠ .closeWait
  deriving Decidable

theorem close_eq_none_iff : (tcb.close now).1 = none ↔ tcb.Removable := by
  unfold close Removable
  cases tcb.state <;> simp

theorem key_close (closed : (tcb.close now).1 = some last) : last.key = tcb.key := by
  unfold close at closed
  split at closed <;> cases closed <;> rfl

/-- The next tick of the timer removes the socket. -/
def Expires (now : UInt64) (tcb : Tcb) : Prop :=
  tcb.state = .closed ∨ (tcb.state = .timeWait ∧ now - tcb.timeWaitTick > 400) ∨
    (tcb.state ≠ .timeWait ∧ (tcb.retransmitSeg ≠ [] ∨ tcb.state = .synSent) ∧
      now - tcb.retransmitTick > retransmitTimeout ∧ tcb.retransmitCount ≥ maxRetransmits)
  deriving Decidable

theorem tickSynSent_eq_none_iff : (tickSynSent now tcb).1 = none ↔ tcb.state = .synSent ∧
      now - tcb.retransmitTick > retransmitTimeout ∧ tcb.retransmitCount ≥ maxRetransmits := by
  unfold tickSynSent
  split
  · split <;> simp_all
  · simp_all

theorem timerTick_eq_none_iff : (tcb.timerTick now).1 = none ↔ tcb.Expires now := by
  unfold timerTick Expires
  split
  · rename_i waiting
    split <;> simp_all
  rename_i notWaiting
  split
  · simp_all
  rename_i notClosed
  split
  · rename_i expired
    obtain ⟨seg, late⟩ := expired
    split
    · simp_all
    -- the timer has been set to now, so the SYN is not sent again in the same tick
    have kept : (tickSynSent now { tcb with
        retransmitTick := now
        retransmitCount := tcb.retransmitCount + 1 }).1 ≠ none := by
      rw [ne_eq, tickSynSent_eq_none_iff, UInt64.sub_self]
      exact fun ⟨_, later, _⟩ => absurd later (by decide)
    simp_all
  · rename_i inTime
    rw [tickSynSent_eq_none_iff]
    unfold TimedOut at inTime
    grind

theorem key_tickSynSent (ticked : (tickSynSent now tcb).1 = some last) : last.key = tcb.key := by
  unfold tickSynSent at ticked
  split at ticked
  · split at ticked <;> cases ticked
    rfl
  · cases ticked
    rfl

theorem key_timerTick (ticked : (tcb.timerTick now).1 = some last) : last.key = tcb.key := by
  unfold timerTick at ticked
  split at ticked
  · split at ticked <;> cases ticked
    rfl
  split at ticked
  · cases ticked
  split at ticked
  · split at ticked
    · cases ticked
    · dsimp only at ticked
      exact (key_tickSynSent ticked).trans rfl
  · exact key_tickSynSent ticked

end Tcb

namespace Stack

/-! ## Soundness -/

/-- No two sockets have the same addresses; a socket that `accept` owes is in the queue of its
port, once; and `accept` has returned only sockets that were there. -/
structure Sound (s : Stack) : Prop where
  distinct : ∀ {id id' sock sock'}, s.connections id = some sock →
    s.connections id' = some sock' → sock.tcb.key = sock'.tcb.key → id = id'
  waiting : ∀ {id sock}, s.connections id = some sock → sock.unclaimed →
    ∃ queue, s.listeners sock.tcb.localPort = some queue ∧ queue.count id = 1
  returned : s.stale = []

def Queued (s : Stack) (id : ℕ) : Prop :=
  ∃ port queue, s.listeners port = some queue ∧ id ∈ queue

/-- The segment opens a connection: it is a SYN to a listening port from addresses that no socket
has. -/
def Opens (s : Stack) (srcIp : Ipv4Addr) (hdr : TcpHeader) (queue : List ℕ) : Prop :=
  s.find srcIp hdr.srcPort hdr.dstPort = none ∧ (hdr.has Flag.syn && !hdr.has Flag.ack) ∧
    s.listeners hdr.dstPort = some queue

/-- A `connect` goes to new addresses, a SYN that opens a connection finds room in the queue, and
what is removed is in no queue. -/
def Good (s : Stack) : Event → Prop
  | .connect remoteIp remotePort localPort _ => ∀ id sock, s.connections id = some sock →
      ¬ sock.tcb.Matches remoteIp remotePort localPort
  | .close id => ∀ sock, s.connections id = some sock → sock.tcb.Removable → ¬ s.Queued id
  | .segment _ srcIp payload => ∀ hdr data queue, parse payload = some (hdr, data) →
      s.Opens srcIp hdr.toTcpHeader queue → queue.length < acceptQueueMax
  | .tick => ∀ id sock, s.connections id = some sock → sock.tcb.Expires s.tick → ¬ s.Queued id
  | _ => True

/-- What keeps a stack sound: queues hold nothing but sockets that `accept` owes. -/
structure Inv (s : Stack) : Prop extends Sound s where
  numbered : ∀ {id sock}, s.connections id = some sock → id < s.nextSocketId
  present : ∀ {port queue id}, s.listeners port = some queue → id ∈ queue →
    ∃ sock, s.connections id = some sock ∧ sock.unclaimed ∧ sock.tcb.localPort = port

theorem Inv.init : Inv init where
  distinct := by simp [Stack.init]
  waiting := by simp [Stack.init]
  returned := rfl
  numbered := by simp [Stack.init]
  present := by simp [Stack.init]

/-- A stack whose blocks have changed, but not their addresses. Sockets may be gone. -/
structure Altered (s t : Stack) : Prop where
  listeners : t.listeners = s.listeners
  numbers : t.nextSocketId = s.nextSocketId
  stale : t.stale = s.stale
  kept : ∀ {id sock}, t.connections id = some sock → ∃ old, s.connections id = some old ∧
    old.unclaimed = sock.unclaimed ∧ old.tcb.key = sock.tcb.key

variable {id : ℕ} {s : Stack} {sock : Socket} {opened : Tcb × List Segment} {unclaimed : Bool}
  {queue : List ℕ} {port : UInt16}

theorem Altered.put (here : s.connections id = some sock) {tcb : Option Tcb}
    (same : ∀ {last}, tcb = some last → last.key = sock.tcb.key) (segs : List Segment) :
    Altered s (s.put id sock tcb segs) := by
  refine ⟨rfl, rfl, rfl, ?_⟩
  intro i changed there
  rcases update_eq_some_iff.mp there with ⟨rfl, kept⟩ | ⟨-, old⟩
  · obtain ⟨last, rfl, rfl⟩ := Option.map_eq_some_iff.mp kept
    exact ⟨sock, here, rfl, (same rfl).symm⟩
  · exact ⟨changed, old, rfl, rfl⟩

/-- Altering blocks keeps the invariant if what is gone was in no queue. -/
theorem Inv.altered (inv : Inv s) (altered : Altered s t)
    (left : ∀ {id sock}, s.connections id = some sock → s.Queued id →
      ∃ changed, t.connections id = some changed) : Inv t where
  distinct := by
    intro id id' sock sock' here here' same
    obtain ⟨old, before, -, key⟩ := altered.kept here
    obtain ⟨old', before', -, key'⟩ := altered.kept here'
    exact inv.distinct before before' (key.trans (same.trans key'.symm))
  waiting := by
    intro id sock here owed
    obtain ⟨old, before, unclaimed, key⟩ := altered.kept here
    rw [altered.listeners, ← localPort_eq_of_key_eq key]
    exact inv.waiting before (unclaimed ▸ owed)
  returned := altered.stale ▸ inv.returned
  numbered := by
    intro id sock here
    obtain ⟨old, before, -⟩ := altered.kept here
    rw [altered.numbers]
    exact inv.numbered before
  present := by
    intro port queue id listening mem
    rw [altered.listeners] at listening
    obtain ⟨old, before, owed, localPort⟩ := inv.present listening mem
    obtain ⟨changed, here⟩ := left before ⟨port, queue, listening, mem⟩
    obtain ⟨old', before', unclaimed, key⟩ := altered.kept here
    cases before.symm.trans before'
    exact ⟨changed, here, unclaimed ▸ owed, localPort_eq_of_key_eq key ▸ localPort⟩

/-! ## Opening -/

theorem connections_insert (here : (s.insert opened unclaimed).connections id = some sock) :
    (id = s.nextSocketId ∧ sock = ⟨opened.1, unclaimed⟩) ∨ s.connections id = some sock := by
  rcases update_eq_some_iff.mp here with ⟨new, same⟩ | ⟨-, old⟩
  · exact .inl ⟨new, (Option.some.inj same).symm⟩
  · exact .inr old

section

variable (inv : Inv s)
include inv

theorem connections_insert_of_some (here : s.connections id = some sock) :
    (s.insert opened unclaimed).connections id = some sock := by
  have old : id ≠ s.nextSocketId := ne_of_lt (inv.numbered here)
  simpa [insert, update_of_ne old] using here

theorem Inv.distinct_insert (new : ∀ id sock, s.connections id = some sock →
      ¬ sock.tcb.Matches remoteIp remotePort localPort)
    (key : opened.1.key = (remoteIp, remotePort, localPort)) {id' : ℕ}
    (here : (s.insert opened unclaimed).connections id = some sock)
    (here' : (s.insert opened unclaimed).connections id' = some sock')
    (same : sock.tcb.key = sock'.tcb.key) : id = id' := by
  simp only [matches_iff, ← key] at new
  obtain ⟨rfl, rfl⟩ | old := connections_insert here
  · obtain ⟨rfl, rfl⟩ | old' := connections_insert here'
    · rfl
    · exact absurd same.symm (new _ _ old')
  · obtain ⟨rfl, rfl⟩ | old' := connections_insert here'
    · exact absurd same (new _ _ old)
    · exact inv.distinct old old' same

theorem Inv.numbered_insert (here : (s.insert opened unclaimed).connections id = some sock) :
    id < s.nextSocketId + 1 := by
  obtain ⟨rfl, -⟩ | old := connections_insert here
  · exact Nat.lt_succ_self _
  · exact Nat.lt_succ_of_lt (inv.numbered old)

theorem Inv.connect {isn : UInt32} (new : s.Good (.connect remoteIp remotePort localPort isn)) :
    Inv (s.connect remoteIp remotePort localPort isn).2 where
  distinct := inv.distinct_insert new rfl
  waiting := by
    intro id sock here owed
    obtain ⟨-, rfl⟩ | old := connections_insert here
    · cases owed
    · exact inv.waiting old owed
  returned := inv.returned
  numbered := inv.numbered_insert
  present := by
    intro port queue id listening mem
    obtain ⟨sock, here, rest⟩ := inv.present listening mem
    exact ⟨sock, connections_insert_of_some inv here, rest⟩

theorem find_eq_none_iff : s.find remoteIp remotePort localPort = none ↔
      ∀ id sock, s.connections id = some sock →
        ¬ sock.tcb.Matches remoteIp remotePort localPort := by
  simp only [find, find?_eq_none, mem_range, Option.any_eq_true, decide_eq_true_eq,
    not_exists, not_and]
  constructor
  · intro none id sock here
    exact none id (inv.numbered here) sock here
  · intro none id _ sock here
    exact none id sock here

theorem Inv.openPassive (isn : UInt32)
    (opens : s.Opens srcIp hdr queue) (room : queue.length < acceptQueueMax) :
    Inv (s.openPassive isn srcIp hdr queue) := by
  obtain ⟨unknown, -, listening⟩ := opens
  have new := (find_eq_none_iff inv).mp unknown
  have unqueued : s.nextSocketId ∉ queue := by
    intro mem
    obtain ⟨sock, here, -⟩ := inv.present listening mem
    exact absurd (inv.numbered here) (lt_irrefl _)
  unfold Stack.openPassive
  rw [if_pos room]
  refine ⟨⟨inv.distinct_insert new rfl, ?_, inv.returned⟩, inv.numbered_insert, ?_⟩
  · intro id sock here owed
    obtain ⟨rfl, rfl⟩ | old := connections_insert here
    · refine ⟨queue ++ [s.nextSocketId], update_self .., ?_⟩
      rw [count_append, count_eq_zero.mpr unqueued, count_singleton_self]
    obtain ⟨own, listens, once⟩ := inv.waiting old owed
    by_cases port : sock.tcb.localPort = hdr.dstPort
    · rw [port, listening] at listens
      cases listens
      refine ⟨queue ++ [s.nextSocketId], port ▸ update_self .., ?_⟩
      have other : s.nextSocketId ≠ id := (ne_of_lt (inv.numbered old)).symm
      rw [count_append, once, count_singleton, if_neg (by simpa using other)]
    · exact ⟨own, (update_of_ne port ..).trans listens, once⟩
  · intro port own id listens mem
    rcases update_eq_some_iff.mp listens with ⟨rfl, ⟨⟩⟩ | ⟨-, before⟩
    · obtain old | new := mem_append.mp mem
      · obtain ⟨sock, here, rest⟩ := inv.present listening old
        exact ⟨sock, connections_insert_of_some inv here, rest⟩
      · cases mem_singleton.mp new
        exact ⟨_, update_self .., rfl, rfl⟩
    · obtain ⟨sock, here, rest⟩ := inv.present before mem
      exact ⟨sock, connections_insert_of_some inv here, rest⟩

/-! ## The other steps -/

theorem Inv.listen (port : UInt16) : Inv (s.listen port).2 := by
  unfold Stack.listen
  split
  · exact inv
  rename_i free
  refine ⟨⟨inv.distinct, ?_, inv.returned⟩, inv.numbered, ?_⟩
  · intro id sock here owed
    obtain ⟨queue, listening, once⟩ := inv.waiting here owed
    have other : sock.tcb.localPort ≠ port := by
      intro this
      rw [this, free] at listening
      cases listening
    exact ⟨queue, (update_of_ne other ..).trans listening, once⟩
  · intro port' queue id listening mem
    rcases update_eq_some_iff.mp listening with ⟨-, ⟨⟩⟩ | ⟨-, before⟩
    · cases mem
    · exact inv.present before mem

/-- The head of a queue is owed, so it is nowhere else in the queue. -/
theorem Inv.head_not_mem (listening : s.listeners port = some (id :: queue)) : id ∉ queue := by
  obtain ⟨sock, here, owed, localPort⟩ := inv.present listening mem_cons_self
  obtain ⟨own, listens, once⟩ := inv.waiting here owed
  rw [localPort, listening] at listens
  cases listens
  rw [count_cons_self] at once
  exact count_eq_zero.mp (Nat.succ.inj once)

end

theorem accept_eq_of_some (listening : s.listeners port = some (id :: queue))
    (here : s.connections id = some sock) : s.accept port = (some id, { s with
      listeners := update s.listeners port (some queue)
      connections :=
        update s.connections id (some { sock with unclaimed := false }) }) := by
  simp [accept, listening, claim, here]

theorem of_claimed {head : Socket} (here : s.connections id = some head)
    (there : update s.connections id (some { head with unclaimed := false }) i = some sock) :
    ∃ old, s.connections i = some old ∧ old.tcb = sock.tcb ∧
      (sock.unclaimed → i ≠ id ∧ old = sock) := by
  rcases update_eq_some_iff.mp there with ⟨rfl, ⟨⟩⟩ | ⟨other, old⟩
  · exact ⟨head, here, rfl, fun owed => absurd owed (by simp)⟩
  · exact ⟨sock, old, rfl, fun _ => ⟨other, rfl⟩⟩

theorem Inv.accept (inv : Inv s) (port : UInt16) : Inv (s.accept port).2 := by
  cases listening : s.listeners port with
  | none => simpa [Stack.accept, listening] using inv
  | some queue =>
    cases queue with
    | nil => simpa [Stack.accept, listening] using inv
    | cons id queue =>
      obtain ⟨head, here, owed, localPort⟩ := inv.present listening mem_cons_self
      have gone := inv.head_not_mem listening
      rw [accept_eq_of_some listening here]
      refine ⟨⟨?_, ?_, inv.returned⟩, ?_, ?_⟩
      · intro i i' sock sock' there there' same
        obtain ⟨old, before, tcb, -⟩ := of_claimed here there
        obtain ⟨old', before', tcb', -⟩ := of_claimed here there'
        exact inv.distinct before before' (by rw [tcb, tcb', same])
      · intro i sock there unclaimed
        obtain ⟨old, before, -, still⟩ := of_claimed here there
        obtain ⟨other, rfl⟩ := still unclaimed
        obtain ⟨own, listens, once⟩ := inv.waiting before unclaimed
        by_cases this : old.tcb.localPort = port
        · rw [this, listening] at listens
          cases listens
          rw [count_cons_of_ne (Ne.symm other)] at once
          exact ⟨queue, this ▸ update_self .., once⟩
        · exact ⟨own, (update_of_ne this ..).trans listens, once⟩
      · intro i sock there
        obtain ⟨old, before, -⟩ := of_claimed here there
        exact inv.numbered before
      · -- a socket left in a queue is not the one returned
        have left : ∀ {port' own i}, s.listeners port' = some own → i ∈ own → i ≠ id →
            ∃ sock, update s.connections id (some { head with unclaimed := false }) i =
              some sock ∧ sock.unclaimed ∧ sock.tcb.localPort = port' := by
          intro port' own i listens mem other
          obtain ⟨sock, before, rest⟩ := inv.present listens mem
          exact ⟨sock, (update_of_ne other ..).trans before, rest⟩
        intro port' own i listens mem
        rcases update_eq_some_iff.mp listens with ⟨rfl, ⟨⟩⟩ | ⟨this, before⟩
        · exact left listening (mem_cons_of_mem _ mem) fun same => gone (same ▸ mem)
        refine left before mem ?_
        rintro rfl
        obtain ⟨sock, again, -, elsewhere⟩ := inv.present before mem
        cases here.symm.trans again
        exact this (elsewhere.symm.trans localPort)

theorem put_some_of_some (there : s.connections i = some sock') :
    ∃ changed, (s.put id sock (some tcb) segs).connections i = some changed := by
  by_cases this : i = id
  · subst this
    exact ⟨_, update_self ..⟩
  · exact ⟨sock', (update_of_ne this ..).trans there⟩

theorem Inv.put_some (inv : Inv s) (here : s.connections id = some sock)
    (same : tcb.key = sock.tcb.key) (segs : List Segment) :
    Inv (s.put id sock (some tcb) segs) := by
  refine inv.altered (Altered.put here ?_ segs) fun there _ => put_some_of_some there
  rintro last ⟨⟩
  exact same

theorem Inv.close (inv : Inv s) (good : s.Good (.close id)) : Inv (s.close id).2 := by
  unfold Stack.close
  split
  · exact inv
  rename_i sock here
  refine inv.altered (Altered.put here key_close _) ?_
  intro i sock' there queued
  by_cases this : i = id
  · subst this
    cases closed : (sock.tcb.close s.tick).1 with
    | none => exact absurd queued (good sock here (close_eq_none_iff.mp closed))
    | some last =>
      dsimp only
      rw [closed]
      exact put_some_of_some there
  · exact ⟨sock', (update_of_ne this ..).trans there⟩

theorem Inv.timerTick (inv : Inv s) (good : s.Good .tick) : Inv s.timerTick := by
  refine inv.altered ⟨rfl, rfl, rfl, ?_⟩ ?_
  · intro id sock there
    obtain ⟨old, before, ticked⟩ := Option.bind_eq_some_iff.mp there
    obtain ⟨tcb, after, rfl⟩ := Option.map_eq_some_iff.mp ticked
    exact ⟨old, before, rfl, (key_timerTick after).symm⟩
  · intro id sock here queued
    cases ticked : (sock.tcb.timerTick s.tick).1 with
    | none => exact absurd queued (good id sock here (timerTick_eq_none_iff.mp ticked))
    | some last => exact ⟨{ sock with tcb := last }, by simp [Stack.timerTick, here, ticked]⟩

theorem Inv.handleSegment (inv : Inv s) (isn : UInt32)
    (data : List UInt8) (room : ∀ queue, s.Opens srcIp hdr queue → queue.length < acceptQueueMax) :
    Inv (s.handleSegment isn srcIp hdr data) := by
  unfold Stack.handleSegment
  split
  · split
    · rename_i sock here
      exact inv.put_some here (key_processSegment ..) _
    · exact inv
  · rename_i unknown
    split
    · rename_i queue syn listening
      have opens : s.Opens srcIp hdr queue := ⟨unknown, syn, listening⟩
      exact inv.openPassive isn opens (room queue opens)
    · exact inv.altered ⟨rfl, rfl, rfl, fun there => ⟨_, there, rfl, rfl⟩⟩
        fun there _ => ⟨_, there⟩

theorem Inv.step (inv : Inv s) (good : s.Good event) : Inv (s.step event) := by
  cases event with
  | connect remoteIp remotePort localPort isn => exact inv.connect good
  | listen port => exact inv.listen port
  | accept port => exact inv.accept port
  | send id data =>
    simp only [Stack.step, Stack.send]
    split
    · exact inv
    rename_i sock here
    split
    · exact inv
    · rename_i sent
      exact inv.put_some here (key_send sent) _
  | recv id len =>
    simp only [Stack.step, Stack.recv]
    split
    · exact inv
    rename_i sock here
    split
    · exact inv
    · rename_i received
      exact inv.put_some here (key_recv received) _
  | close id => exact inv.close good
  | segment isn srcIp payload =>
    simp only [Stack.step, handleTcp]
    split
    · exact inv
    · rename_i hdr data parsed
      exact inv.handleSegment isn data fun queue => good hdr data queue parsed
  | tick => exact inv.timerTick good

/-! ## Steps that break it -/

def accepts (ports : List UInt16) : List Event := ports.map .accept

/-- A queued socket that is not in the table is returned in the end. -/
theorem stale_of_queued (listening : s.listeners port = some queue) (mem : id ∈ queue)
    (gone : s.connections id = none) : ∃ ports, (s.run (accepts ports)).stale ≠ [] := by
  induction queue generalizing s with
  | nil => cases mem
  | cons head queue ih =>
    cases there : s.connections head with
    | none =>
      refine ⟨[port], ?_⟩
      simp [accepts, step, accept, listening, claim, there]
    | some sock =>
      have other : id ≠ head := by
        rintro rfl
        cases gone.symm.trans there
      have after : s.step (.accept port) = _ :=
        congrArg Prod.snd (accept_eq_of_some listening there)
      obtain ⟨ports, stale⟩ := @ih (s.step (.accept port))
        (by rw [after]; exact update_self ..)
        ((mem_cons.mp mem).resolve_left other)
        (by rw [after]; exact (update_of_ne other ..).trans gone)
      exact ⟨port :: ports, stale⟩

/-- After a step that is not good, soundness ends with the step or with some calls of `accept`. -/
theorem Inv.unsound_of_not_good (inv : Inv s) (bad : ¬ s.Good event) :
    ∃ ports, ¬ Sound ((s.step event).run (accepts ports)) := by
  cases event with
  | connect remoteIp remotePort localPort isn =>
    simp only [Good, not_forall, not_not] at bad
    obtain ⟨id, sock, here, same⟩ := bad
    refine ⟨[], fun sound => ?_⟩
    have old := @connections_insert_of_some id s sock
      (Tcb.connect remoteIp remotePort localPort isn s.tick) false inv here
    have equal := sound.distinct old (update_self ..) (Tcb.matches_iff.mp same)
    exact absurd (inv.numbered here) (equal ▸ lt_irrefl _)
  | listen | accept | send | recv => exact absurd trivial bad
  | close id =>
    simp only [Good, not_forall, not_not] at bad
    obtain ⟨sock, here, removable, port, queue, listening, mem⟩ := bad
    have removed := (@Tcb.close_eq_none_iff sock.tcb s.tick).mpr removable
    have after : s.step (.close id) = s.put id sock none (sock.tcb.close s.tick).2 := by
      simp [Stack.step, Stack.close, here, removed]
    rw [after]
    obtain ⟨ports, stale⟩ := @stale_of_queued id (s.put id sock none (sock.tcb.close s.tick).2)
      queue port listening mem (update_self ..)
    exact ⟨ports, fun sound => stale sound.returned⟩
  | segment isn srcIp payload =>
    simp only [Good, not_forall, not_lt] at bad
    obtain ⟨hdr, data, queue, parsed, ⟨unknown, syn, listening⟩, full⟩ := bad
    refine ⟨[], fun sound => ?_⟩
    have after : s.step (.segment isn srcIp payload) =
        s.insert (Tcb.passiveOpen srcIp hdr.toTcpHeader isn s.tick) true := by
      simp [Stack.step, handleTcp, parsed, Stack.handleSegment, unknown, syn, listening,
        Stack.openPassive, if_neg (not_lt.mpr full)]
    rw [after] at sound
    obtain ⟨own, listens, once⟩ := @Sound.waiting _ sound s.nextSocketId _
      (update_self ..) rfl
    cases listening.symm.trans listens
    have mem : s.nextSocketId ∈ queue := count_pos_iff.mp (by omega)
    obtain ⟨sock, here, -⟩ := inv.present listening mem
    exact absurd (inv.numbered here) (lt_irrefl _)
  | tick =>
    simp only [Good, not_forall, not_not] at bad
    obtain ⟨id, sock, here, expires, port, queue, listening, mem⟩ := bad
    have removed := (@Tcb.timerTick_eq_none_iff sock.tcb s.tick).mpr expires
    obtain ⟨ports, stale⟩ := @stale_of_queued id s.timerTick queue port listening mem
      (by simp [Stack.timerTick, here, removed])
    exact ⟨ports, fun sound => stale sound.returned⟩

/-! ## Sequences of events -/

def Steps (s : Stack) (event : Event) (next : Stack) : Prop := s.step event = next

theorem Inv.run_accepts (inv : Inv s) (ports : List UInt16) : Inv (s.run (accepts ports)) := by
  induction ports generalizing s with
  | nil => exact inv
  | cons port ports ih => exact ih (inv.accept port)

theorem Inv.good_run_iff (inv : Inv s) (events : List Event) :
    (∀ front, front <+: events → ∀ ports, Sound (s.run (front ++ accepts ports))) ↔
      Run (Guarded Good Steps) s events (s.run events) := by
  induction events generalizing s with
  | nil =>
    constructor
    · intro _
      exact .nil s
    · intro _ front empty ports
      cases prefix_nil.mp empty
      exact (inv.run_accepts ports).toSound
  | cons event events ih =>
    constructor
    · intro sound
      have good : s.Good event := by
        by_contra bad
        obtain ⟨ports, unsound⟩ := inv.unsound_of_not_good bad
        exact unsound (sound [event] ⟨events, rfl⟩ ports)
      refine .cons ⟨good, rfl⟩ ((ih (inv.step good)).mp ?_)
      intro front isPrefix ports
      exact sound (event :: front) (cons_prefix_cons.mpr ⟨rfl, isPrefix⟩) ports
    · rintro (_ | ⟨⟨good, rfl⟩, rest⟩) front isPrefix ports
      cases front with
      | nil => exact (inv.run_accepts ports).toSound
      | cons first front =>
        obtain ⟨rfl, within⟩ := cons_prefix_cons.mp isPrefix
        exact (ih (inv.step good)).mpr rest front within ports

/-- A sequence of events from the start stays sound at every moment, whatever calls of `accept`
come then, exactly if every `connect` goes to new addresses, every SYN that opens a connection
finds room in the queue, and no queued socket is removed. -/
theorem sound_iff_good (events : List Event) :
    (∀ front, front <+: events → ∀ ports, Sound (init.run (front ++ accepts ports))) ↔
      Run (Guarded Good Steps) init events (init.run events) :=
  Inv.init.good_run_iff events

/-- Two connections to one server from one port. -/
theorem not_sound_run : ¬ ∀ events, Sound (init.run events) := by
  intro sound
  let again : Event := .connect #v[10, 0, 2, 2] 80 49152 1000
  have both := sound [again, again]
  have same := @Sound.distinct _ both 1 2 _ _ rfl rfl rfl
  exact absurd same (by decide)

end Stack

end SmartOs.Net.Tcp
