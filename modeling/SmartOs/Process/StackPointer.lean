/-
# Context switches save the stack pointer in the right thread

A switch saves the stack pointer of the running code through a pointer into the queue, or
into a variable that nobody reads. `yield_now` and `preempt` save it in the thread that is
switched out, with one exception: when the current thread is dead, `yield_now` has dropped
it and takes the last thread of the queue for it, whose stack pointer is then overwritten.
`block_current_thread` does not save it at all, so the blocked thread keeps a stale stack
pointer and resumes there.

In runs without these two, a thread that is not current has the stack pointer it had when
it was last switched out.
-/

import SmartOs.Process.Conservation

namespace SmartOs.Process

open SmartOs.CS List Scheduler Traced

/-- Threads that wait have the stack pointer `out` remembers for them. A current thread may
have another one after a timer tick that found nobody to switch to, but then somebody is
ready. -/
structure Scheduler.Saved (s : Scheduler) (out : ℕ → UInt64) : Prop where
  queued : ∀ thread ∈ s.readyQueue, thread.stackPtr = out thread.tid
  blocked : ∀ tid thread, s.blockedThreads tid = some thread → thread.stackPtr = out thread.tid
  current : ∀ thread, s.current = some thread → s.readyQueue = [] → thread.stackPtr = out thread.tid

/-- The event saves the stack pointer in the right thread: no `yield_now` of a dead thread
with two threads ready, and a thread that blocks to let another run has its stack pointer
saved already. -/
def Scheduler.SavesRight (s : Scheduler) : Event → Prop
  | .yieldNow _ =>
    2 ≤ s.readyQueue.length → ∀ thread, s.current = some thread → thread.state ≠ .dead
  | .blockCurrentThread _ rsp =>
    s.readyQueue ≠ [] → ∀ thread, s.current = some thread → thread.stackPtr = rsp
  | _ => True

/-- The thread was there with the same stack pointer. -/
def Scheduler.Had (s : Scheduler) (thread : Thread) : Prop :=
  ∃ before, s.Holds before ∧ before.tid = thread.tid ∧ before.stackPtr = thread.stackPtr

/-- Of the threads of `s`, only the one in the current slot may have another stack pointer
in `t`. -/
def KeepsStackPtrs (s t : Scheduler) : Prop :=
  ∀ thread, t.Holds thread → thread.tid < s.nextTid →
    (∀ old, s.current = some old → thread.tid ≠ old.tid) → s.Had thread

variable {thread : Thread} {tid : ℕ} {rsp : UInt64}

namespace Scheduler

variable {s : Scheduler}

/-- A dead thread that yields with nobody else behind the next one leaves an empty queue. -/
theorem SavesRight.rest_eq_nil {old new : Thread} {rest : List Thread}
    (right : s.SavesRight (.yieldNow rsp)) (current : s.current = some old)
    (queue : s.readyQueue = new :: rest) (dead : old.state = .dead) : rest = [] := by
  cases rest with
  | nil => rfl
  | cons second rest => exact absurd dead (right (by simp [queue]) old current)

/-- The thread is ready or blocked. -/
def Waits (s : Scheduler) (thread : Thread) : Prop :=
  thread ∈ s.readyQueue ∨ ∃ tid, s.blockedThreads tid = some thread

/-- Where a thread that waits after an event comes from. -/
inductive WaitOrigin (s : Scheduler) (e : Event) (thread : Thread) : Prop
  /-- It waited before. -/
  | waited (before : Thread) (waits : s.Waits before) (tid : before.tid = thread.tid)
      (same : before.stackPtr = thread.stackPtr)
  /-- It was current and another one takes over. -/
  | switched (old : Thread) (rsp : UInt64) (current : s.current = some old)
      (out : e.switchesOut s = some (old.tid, rsp)) (tid : old.tid = thread.tid)
      (same : rsp = thread.stackPtr)
  /-- It was current and blocks with nobody to take over. -/
  | stopped (old : Thread) (current : s.current = some old) (out : e.switchesOut s = none)
      (empty : s.readyQueue = []) (tid : old.tid = thread.tid)
      (same : old.stackPtr = thread.stackPtr)
  | created (new : Spawn) (spawn : e = .spawn new) (same : new.thread s.nextTid = thread)

/-- Where the thread that is current after an event to `t` comes from. -/
inductive CurrentOrigin (s : Scheduler) (e : Event) (t : Scheduler) (thread : Thread) : Prop
  /-- It was ready. -/
  | selected (before : Thread) (ready : before ∈ s.readyQueue) (tid : before.tid = thread.tid)
      (same : before.stackPtr = thread.stackPtr)
  /-- It was current already. Its stack pointer may be new if somebody is ready. -/
  | stayed (old : Thread) (current : s.current = some old) (out : e.switchesOut s = none)
      (tid : old.tid = thread.tid)
      (same : t.readyQueue = [] → s.readyQueue = [] ∧ old.stackPtr = thread.stackPtr)

variable {e : Event}

theorem switchesOut_eq_none (stays : (s.step e).2 = none) : e.switchesOut s = none := by
  cases e <;> simp [Event.switchesOut, stays]

theorem waits_step (right : s.SavesRight e) (waits : (s.step e).1.Waits thread) :
    s.WaitOrigin e thread := by
  have effect := s.step_effect e
  have same (waits : s.Waits thread) : s.WaitOrigin e thread := .waited thread waits rfl rfl
  generalize result : s.step e = next at effect waits
  cases effect with
  | idle | preemptNone | exitLast => exact same waits
  | spawn new =>
    rcases waits with mem | found
    · rcases mem_append.mp mem with old | last
      · exact same (.inl old)
      · exact .created new rfl (mem_singleton.mp last).symm
    · exact same (.inr found)
  | @yieldNow rsp old new rest current queue alive =>
    have out : (Event.yieldNow rsp).switchesOut s = some (old.tid, rsp) := by
      simp [Event.switchesOut, result, current]
    rcases waits with mem | found
    · rcases mem_append.mp mem with behind | last
      · exact same (.inl (by simp [queue, behind]))
      · rw [mem_singleton.mp last]
        exact .switched old rsp current out rfl rfl
    · exact same (.inr found)
  | @yieldDead rsp old new rest current queue dead =>
    -- the queue is empty now, so no other thread gets the stack pointer of the dead one
    obtain rfl := SavesRight.rest_eq_nil right current queue dead
    rcases waits with ⟨⟨⟩⟩ | found
    exact same (.inr found)
  | @preempt rsp old new front back current queue =>
    have out : (Event.preempt true rsp).switchesOut s = some (old.tid, rsp) := by
      simp [Event.switchesOut, result, current]
    rcases waits with mem | found
    · rcases mem_append.mp mem with inside | last
      · refine same (.inl ?_)
        rw [queue]
        simp only [mem_append] at inside ⊢
        tauto
      · rw [mem_singleton.mp last]
        exact .switched old rsp current out rfl rfl
    · exact same (.inr found)
  | @block reason rsp old next rest current queue =>
    -- nothing is saved, but the condition says that nothing needed to be
    have out : (Event.blockCurrentThread reason rsp).switchesOut s = some (old.tid, rsp) := by
      simp [Event.switchesOut, result, current]
    rcases waits with mem | ⟨tid, found⟩
    · exact same (.inl (by simp [queue, (show thread ∈ rest from mem)]))
    rcases update_eq_some_iff.mp found with ⟨-, ⟨⟩⟩ | ⟨-, found⟩
    · exact .switched old rsp current out rfl (right (by simp [queue]) old current).symm
    · exact same (.inr ⟨tid, found⟩)
  | @blockLast reason rsp old current queue =>
    rcases waits with mem | ⟨tid, found⟩
    · exact same (.inl mem)
    rcases update_eq_some_iff.mp found with ⟨-, ⟨⟩⟩ | ⟨-, found⟩
    · exact .stopped old current (switchesOut_eq_none (by rw [result])) queue rfl rfl
    · exact same (.inr ⟨tid, found⟩)
  | @wake tid woken found =>
    rcases waits with mem | ⟨tid', found'⟩
    · rcases mem_append.mp mem with old | last
      · exact same (.inl old)
      · rw [mem_singleton.mp last]
        exact .waited woken (.inr ⟨tid, found⟩) rfl rfl
    · rcases update_eq_some_iff.mp found' with ⟨-, ⟨⟩⟩ | ⟨-, found'⟩
      exact same (.inr ⟨tid', found'⟩)
  | @exit next rest queue =>
    rcases waits with mem | found
    · exact same (.inl (by simp [queue, (show thread ∈ rest from mem)]))
    · exact same (.inr found)
  | freeze pid =>
    rcases waits with mem | found
    · obtain ⟨old, inside, rfl⟩ := mem_map.mp mem
      exact .waited old (.inl inside) (by split_ifs <;> rfl) (by split_ifs <;> rfl)
    · exact same (.inr found)

theorem current_step (current : (s.step e).1.current = some thread) :
    s.CurrentOrigin e (s.step e).1 thread := by
  have effect := s.step_effect e
  have stays : (s.step e).2 = none → e.switchesOut s = none := switchesOut_eq_none
  generalize s.step e = next at effect current stays ⊢
  cases effect with
  | idle => exact .stayed thread current (stays rfl) rfl fun empty => ⟨empty, rfl⟩
  | spawn => exact .stayed thread current rfl rfl fun empty => by simp [spawn] at empty
  | wake => exact .stayed thread current rfl rfl fun empty => by simp at empty
  | freeze =>
    exact .stayed thread current rfl rfl fun empty => ⟨map_eq_nil_iff.mp empty, rfl⟩
  | @yieldNow _ _ new _ _ queue | @yieldDead _ _ new _ _ queue | @preempt _ _ new _ _ _ queue
  | @block _ _ _ new _ _ queue | @exit new _ queue =>
    cases current
    exact .selected new (by simp [queue]) rfl rfl
  | @preemptNone _ old before queue =>
    -- the timer tick has stored a stack pointer, but the queue is not empty
    cases current
    exact .stayed old before (stays rfl) rfl fun empty => absurd empty queue
  | blockLast => cases current
  | exitLast queue =>
    obtain ⟨old, before, rfl⟩ := Option.map_eq_some_iff.mp current
    exact .stayed old before rfl rfl fun _ => ⟨queue, rfl⟩

theorem keepsStackPtrs_step (right : s.SavesRight e) : KeepsStackPtrs s (s.step e).1 := by
  intro thread held created other
  have not_current {old : Thread} (current : s.current = some old) (tid : old.tid = thread.tid) :
      s.Had thread := absurd tid.symm (other old current)
  rcases held with current | waits
  · cases current_step current with
    | selected before ready tid same => exact ⟨before, .inr (.inl ready), tid, same⟩
    | stayed old current _ tid => exact not_current current tid
  cases waits_step right waits with
  | waited before waits tid same => exact ⟨before, .inr waits, tid, same⟩
  | switched old _ current _ tid => exact not_current current tid
  | stopped old current _ _ tid => exact not_current current tid
  | created new _ same =>
    rw [← same, Spawn.thread_tid] at created
    exact absurd created (Nat.lt_irrefl _)

theorem absent_of_places (absent : s.places tid = 0) :
    tid ∉ s.readyQueue.map Thread.tid ∧ s.blockedThreads tid = none := by
  obtain ⟨unqueued, idle⟩ := Slots.not_mem_of_places absent
  exact ⟨unqueued, by simpa [slots] using idle⟩

theorem Waits.found (keyed : s.Keyed) (waits : s.Waits thread) :
    ¬(thread.tid ∉ s.readyQueue.map Thread.tid ∧ s.blockedThreads thread.tid = none) := by
  rintro ⟨unqueued, unblocked⟩
  rcases waits with mem | ⟨tid, found⟩
  · exact unqueued (mem_map_of_mem mem)
  · rw [keyed tid thread found, found] at unblocked
    cases unblocked

theorem current_of_switchesOut (out : e.switchesOut s = some (tid, rsp)) :
    ∃ old, s.current = some old ∧ old.tid = tid := by
  cases e with
  | yieldNow | preempt | blockCurrentThread =>
    simp only [Event.switchesOut] at out
    split_ifs at out
    obtain ⟨old, current, same⟩ := Option.map_eq_some_iff.mp out
    cases same
    exact ⟨old, current, rfl⟩
  | _ => cases out

end Scheduler

namespace Traced

variable {s : Traced} {e : Event}

theorem record_of_switchesOut (out : e.switchesOut s.toScheduler = some (tid, rsp)) :
    s.record e tid = rsp := by
  cases e with
  | spawn => cases out
  | _ => simp [record, out]

/-- Nothing new is recorded for a thread that is neither switched out nor created. -/
theorem record_of_ne (created : tid < s.nextTid)
    (other : ∀ rsp, e.switchesOut s.toScheduler ≠ some (tid, rsp)) :
    s.record e tid = s.lastOut tid := by
  cases out : e.switchesOut s.toScheduler with
  | none =>
    cases e with
    | spawn => exact Function.update_of_ne (Nat.ne_of_lt created) _ _
    | _ => simp [record, out]
  | some switch =>
    obtain ⟨switched, rsp⟩ := switch
    have ne : tid ≠ switched := fun same => other rsp (by rw [out, same])
    cases e with
    | spawn => cases out
    | _ => simp [record, out, ne]

theorem record_of_waits (h : s.Conserved) (waits : s.Waits thread) :
    s.record e thread.tid = s.lastOut thread.tid := by
  have found := waits.found h.keyed
  refine record_of_ne ?_ fun rsp out => ?_
  · by_contra later
    exact found (absent_of_places (h.fresh _ (Nat.le_of_not_lt later)))
  -- a thread that is switched out was current and so in no other place
  obtain ⟨old, current, same⟩ := current_of_switchesOut out
  obtain ⟨-, elsewhere⟩ := unique_of_current h.once h.fresh current
  rw [same] at elsewhere
  exact found elsewhere

theorem saved_next (h : s.Conserved) (saved : s.toScheduler.Saved s.lastOut)
    (right : s.SavesRight e) : (s.next e).toScheduler.Saved (s.next e).lastOut := by
  have savedBefore {thread : Thread} (waits : s.Waits thread) :
      thread.stackPtr = s.lastOut thread.tid := by
    rcases waits with mem | ⟨tid, found⟩
    · exact saved.queued thread mem
    · exact saved.blocked tid thread found
  -- by origin: old entries are not recorded anew, and those switched out are
  have waiting {thread : Thread} (waits : (s.step e).1.Waits thread) :
      thread.stackPtr = s.record e thread.tid := by
    cases waits_step right waits with
    | waited before waits tid same =>
      rw [← tid, ← same, record_of_waits h waits, savedBefore waits]
    | switched old rsp current out tid same => rw [← tid, ← same, record_of_switchesOut out]
    | stopped old current out empty tid same =>
      have created := (unique_of_current h.once h.fresh current).1
      rw [← tid, ← same, record_of_ne created (by simp [out]), saved.current old current empty]
    | created new spawn same =>
      subst spawn same
      simp [record, Spawn.thread_tid]
  refine ⟨fun thread mem => waiting (.inl mem),
    fun tid thread found => waiting (.inr ⟨tid, found⟩), fun thread current empty => ?_⟩
  cases current_step current with
  | selected before ready tid same =>
    rw [← tid, ← same, savedBefore (.inl ready)]
    exact (record_of_waits h (.inl ready)).symm
  | stayed old before out tid same =>
    obtain ⟨empty, ptr⟩ := same empty
    have created := (unique_of_current h.once h.fresh before).1
    rw [← tid, ← ptr, saved.current old before empty]
    exact (record_of_ne created (by simp [out])).symm

end Traced

/-! ## Runs -/

/-- The event saves the stack pointer in the right thread. -/
def Traced.SavesRight (s : Traced) (e : Event) : Prop := s.toScheduler.SavesRight e

/-- Threads are conserved and the waiting ones have the stack pointers recorded. -/
def Traced.Resumable (s : Traced) : Prop := s.Conserved ∧ s.toScheduler.Saved s.lastOut

/-- In every run in which switches save in the right thread, a thread that waits has the
stack pointer it had when it was last switched out, or its initial one, and no step
changes the stack pointer of a thread that is not current. -/
theorem stackPtr_run {s t : Traced} {events : List Event} (start : s.Started)
    (run : Run (Guarded Traced.SavesRight Traced.Step) s events t) :
    (∀ thread, t.Holds thread → t.current ≠ some thread → thread.stackPtr = t.lastOut thread.tid) ∧
      ∀ e u, t.SavesRight e → t.Step e u → KeepsStackPtrs t.toScheduler u.toScheduler := by
  have initially : s.Resumable :=
    ⟨start.conserved, fun thread mem => start.saved thread (.inr (.inl mem)),
      fun tid thread found => start.saved thread (.inr (.inr ⟨tid, found⟩)),
      fun thread current _ => start.saved thread (.inl current)⟩
  have reached : t.Resumable := by
    refine run.invariant ?_ initially
    rintro s e _ ⟨right, rfl⟩ ⟨h, saved⟩
    exact ⟨h.next e, saved_next h saved right⟩
  refine ⟨fun thread held waits => ?_, ?_⟩
  · rcases held with current | queued | ⟨tid, blocked⟩
    · exact absurd current waits
    · exact reached.2.queued thread queued
    · exact reached.2.blocked tid thread blocked
  · rintro e _ right rfl
    exact keepsStackPtrs_step right

theorem stackPtr_run_yield : ∃ t, Run (Guarded Traced.SavesRight Traced.Step) init
    [.spawn (.kernel 0x100000), .yieldNow 0x9000] t ∧
      (∀ thread, t.Holds thread → t.current ≠ some thread →
        thread.stackPtr = t.lastOut thread.tid) ∧
      ∀ e u, t.SavesRight e → t.Step e u → KeepsStackPtrs t.toScheduler u.toScheduler := by
  have run : Run (Guarded Traced.SavesRight Traced.Step) init
      [.spawn (.kernel 0x100000), .yieldNow 0x9000] _ :=
    .cons ⟨trivial, rfl⟩ (.cons ⟨fun two => absurd two (by decide), rfl⟩ (.nil _))
  exact ⟨_, run, stackPtr_run init_started run⟩

/-- The boot thread blocks at stack pointer `0x9000`, but what is stored is still `0`. -/
theorem not_stackPtr_run : ¬∀ (s t : Traced) (events : List Event), s.Started →
    Run Traced.Step s events t → (∀ thread, t.Holds thread → t.current ≠ some thread →
        thread.stackPtr = t.lastOut thread.tid) ∧
      ∀ e u, t.Step e u → KeepsStackPtrs t.toScheduler u.toScheduler := by
  intro claim
  have saved := (claim init _ [.spawn (.kernel 0x100000), .blockCurrentThread (.sleep 100) 0x9000]
    init_started (.cons rfl (.cons rfl (.nil _)))).1 { bootThread with state := .blocked }
    (.inr (.inr ⟨0, rfl⟩)) (by decide)
  exact absurd saved (by decide)

end SmartOs.Process
