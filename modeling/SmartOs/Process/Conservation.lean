/-
# No thread is lost or duplicated

A scheduler state is seen as slots that hold thread identifiers. Every event is one of the
moves of such slots, so threads are conserved: each one is in exactly one place until it
exits. That holds in every run.

That a dead thread stays dead does not. `freeze_process` marks queued threads dead and
leaves them in the queue, from where they are selected like any other; and a thread that
exits while nothing else is ready stays current, where a timer tick or
`block_current_thread` gives it a new state. In runs without these two every thread that
has died is gone or still current and dead.
-/

import SmartOs.CS.Extents
import SmartOs.CS.Run
import SmartOs.CS.Slots
import SmartOs.Process.Scheduler

namespace SmartOs.Process

open SmartOs.CS List Event Thread Function

variable {queue : List Thread}

/-! ## Histories -/

namespace Event

/-- The threads that exit with an event. -/
def exits (s : Scheduler) : Event → List ℕ
  | .exitCurrentThread => (s.current.map tid).toList
  | _ => []

/-- The threads whose state an event makes dead. -/
def kills (s : Scheduler) : Event → List ℕ
  | .exitCurrentThread => (s.current.map tid).toList
  | .freezeProcess pid => (s.readyQueue.filter (·.pid = pid)).map tid
  | _ => []

/-- The thread that an event takes off the processor, and its stack pointer then. -/
def switchesOut (s : Scheduler) (e : Event) : Option (ℕ × UInt64) :=
  match e with
  | .yieldNow rsp | .preempt _ rsp | .blockCurrentThread _ rsp =>
    if (s.step e).2.isSome then s.current.map fun thread => (thread.tid, rsp) else none
  | _ => none

/-- The thread that an event brings into being. -/
def enters (s : Scheduler) : Event → Option ℕ
  | .spawn _ => some s.nextTid
  | _ => none

end Event

/-- A scheduler with what has happened so far: the threads that have exited, those that
have been dead at some time, and the stack pointer each had when it was last switched out,
or its initial one. -/
structure Traced extends Scheduler where
  exited : List ℕ
  died : List ℕ
  lastOut : ℕ → UInt64

/-- The stack pointers to be expected after an event. -/
def Traced.record (s : Traced) (e : Event) : ℕ → UInt64 :=
  match e with
  | .spawn new => update s.lastOut s.nextTid (new.thread s.nextTid).stackPtr
  | e =>
    match e.switchesOut s.toScheduler with
    | none => s.lastOut
    | some (tid, rsp) => update s.lastOut tid rsp

def Traced.next (s : Traced) (e : Event) : Traced where
  toScheduler := (s.step e).1
  exited := e.exits s.toScheduler ++ s.exited
  died := e.kills s.toScheduler ++ s.died
  lastOut := s.record e

def Traced.Step (s : Traced) (e : Event) (t : Traced) : Prop := t = s.next e

/-! ## Places -/

variable {thread : Thread}

namespace Scheduler

/-- Which thread is where. -/
def slots (s : Scheduler) : Slots ℕ where
  current := s.current.map tid
  ready := s.readyQueue.map tid
  waiting tid := (s.blockedThreads tid).isSome

/-- In how many places a thread is. -/
def places (s : Scheduler) (tid : ℕ) : ℕ := s.slots.places tid

/-- The thread is in some place. -/
def Holds (s : Scheduler) (thread : Thread) : Prop :=
  s.current = some thread ∨ thread ∈ s.readyQueue ∨ ∃ tid, s.blockedThreads tid = some thread

/-- Blocked threads are found under their own identifier. -/
def Keyed (s : Scheduler) : Prop :=
  ∀ tid thread, s.blockedThreads tid = some thread → thread.tid = tid

variable {s : Scheduler}

theorem isSome_update (blocked : ℕ → Option Thread) (key : ℕ) (value : Option Thread) :
    (fun tid => (update blocked key value tid).isSome) =
      update (fun tid => (blocked tid).isSome) key value.isSome := by
  funext tid
  by_cases same : tid = key
  · subst same
    simp
  · simp [same]

theorem map_tid_freezeProcess (pid : ℕ) :
    (s.freezeProcess pid).readyQueue.map tid = s.readyQueue.map tid := by
  rw [freezeProcess, map_map]
  refine map_congr_left fun thread _ => ?_
  rw [comp_apply]
  split_ifs <;> rfl

/-- Every event is a move. Only threads that exit, or did so before, leave. -/
theorem move_step (keyed : s.Keyed) (e : Event) :
    ∃ gone, Slots.Move gone (e.enters s) s.slots (s.step e).1.slots ∧
      ∀ tid, gone = some tid → tid ∈ e.exits s ∨
        ∃ thread, s.current = some thread ∧ thread.tid = tid ∧ thread.state = .dead := by
  have effect := s.step_effect e
  generalize s.step e = result at effect ⊢
  cases effect with
  | idle may =>
    -- `spawn` is the only event that lets a thread in, and it always does
    have same : e.enters s = none := by
      cases e with
      | spawn => exact may.elim
      | _ => rfl
    rw [same]
    exact ⟨none, .stay _, by simp⟩
  | spawn new =>
    refine ⟨none, ?_, by simp⟩
    simpa [slots, enters, spawn, Spawn.thread_tid] using
      Slots.Move.enter s.slots.current s.slots.ready s.slots.waiting s.nextTid
  | @yieldNow rsp old new rest current queue alive =>
    refine ⟨none, ?_, by simp⟩
    simpa [slots, enters, current, queue] using
      Slots.Move.switch old.tid new.tid [] (rest.map tid) s.slots.waiting
  | @yieldDead rsp old new rest current queue dead =>
    refine ⟨some old.tid, ?_, fun tid same => .inr ⟨old, current, Option.some.inj same, dead⟩⟩
    simpa [slots, enters, current, queue, map_tid_saveLast] using
      Slots.Move.replace (some old.tid) new.tid (rest.map tid) s.slots.waiting
  | @preempt rsp old new front back current queue =>
    refine ⟨none, ?_, by simp⟩
    simpa [slots, enters, current, queue] using
      Slots.Move.switch old.tid new.tid (front.map tid) (back.map tid) s.slots.waiting
  | preemptNone current queue =>
    refine ⟨none, ?_, by simp⟩
    simpa [slots, enters, current] using Slots.Move.stay s.slots
  -- with or without a next thread, blocking is one move: the head of the queue takes over
  | @block reason rsp thread next rest current queue =>
    refine ⟨none, ?_, by simp⟩
    simpa [slots, enters, current, queue, isSome_update] using
      Slots.Move.wait thread.tid (s.readyQueue.map tid) s.slots.waiting
  | @blockLast reason rsp thread current queue =>
    refine ⟨none, ?_, by simp⟩
    simpa [slots, enters, current, queue, isSome_update] using
      Slots.Move.wait thread.tid [] s.slots.waiting
  | @wake tid thread found =>
    refine ⟨none, ?_, by simp⟩
    simpa [slots, enters, isSome_update, keyed tid thread found] using
      Slots.Move.wake s.slots.current s.slots.ready s.slots.waiting tid (by simp [slots, found])
  | @exit next rest queue =>
    refine ⟨s.current.map tid, ?_, fun tid same => .inl (by simp [exits, same])⟩
    simpa [slots, enters, queue] using
      Slots.Move.replace s.slots.current next.tid (rest.map tid) s.slots.waiting
  | exitLast queue =>
    -- the thread halts in the current slot and does not leave it
    refine ⟨none, ?_, by simp⟩
    simpa [slots, enters, comp_def] using Slots.Move.stay s.slots
  | freeze pid =>
    refine ⟨none, ?_, by simp⟩
    have same : (s.freezeProcess pid).slots = s.slots := by
      rw [slots, map_tid_freezeProcess]
      rfl
    rw [same]
    exact .stay s.slots

theorem unique_of_current (once : ∀ tid, s.places tid ≤ 1)
    (fresh : ∀ tid, s.nextTid ≤ tid → s.places tid = 0) (current : s.current = some thread) :
    thread.tid < s.nextTid ∧ thread.tid ∉ s.readyQueue.map tid ∧
      s.blockedThreads thread.tid = none := by
  have here : s.slots.current = some thread.tid := by simp [slots, current]
  obtain ⟨unqueued, idle⟩ := Slots.unique_of_current (once thread.tid) here
  refine ⟨?_, unqueued, by simpa [slots] using idle⟩
  by_contra later
  have absent := fresh thread.tid (by omega)
  rw [places, Slots.places, if_pos here] at absent
  omega

theorem nextTid_step (e : Event) :
    (s.step e).1.nextTid = s.nextTid + if (e.enters s).isSome then 1 else 0 := by
  have effect := s.step_effect e
  generalize s.step e = result at effect ⊢
  cases effect with
  | idle may =>
    cases e with
    | spawn => exact may.elim
    | _ => rfl
  | _ => rfl

theorem Keyed.step (keyed : s.Keyed) (e : Event) : (s.step e).1.Keyed := by
  have effect := s.step_effect e
  generalize s.step e = result at effect ⊢
  cases effect with
  | block | blockLast =>
    intro tid thread found
    rcases update_eq_some_iff.mp found with ⟨rfl, ⟨⟩⟩ | ⟨-, before⟩
    · rfl
    · exact keyed tid thread before
  | wake =>
    intro tid thread found
    rcases update_eq_some_iff.mp found with ⟨-, ⟨⟩⟩ | ⟨-, before⟩
    exact keyed tid thread before
  | _ => exact keyed

end Scheduler

/-! ## Conservation -/

/-- Threads are conserved so far. -/
structure Traced.Conserved (s : Traced) : Prop where
  keyed : s.Keyed
  once : ∀ tid, s.places tid ≤ 1
  kept : ∀ tid, tid < s.nextTid → tid ∉ s.exited → s.places tid = 1
  fresh : ∀ tid, s.nextTid ≤ tid → s.places tid = 0
  /-- The current thread is dead only if it has exited. -/
  halted : ∀ thread, s.current = some thread → thread.state = .dead → thread.tid ∈ s.exited

namespace Traced.Conserved

variable {s : Traced}

theorem halted_next (h : s.Conserved) (e : Event) (current : (s.next e).current = some thread)
    (dead : thread.state = .dead) : thread.tid ∈ (s.next e).exited := by
  have effect := s.step_effect e
  have before (current : s.current = some thread) : thread.tid ∈ (s.next e).exited :=
    mem_append_right _ (h.halted thread current dead)
  change (s.step e).1.current = some thread at current
  generalize s.step e = result at effect current
  cases effect with
  | idle | spawn | wake | freeze => exact before current
  -- whoever is selected is set running
  | yieldNow | yieldDead | preempt | preemptNone | block | exit =>
    cases current
    cases dead
  | blockLast => cases current
  | exitLast =>
    obtain ⟨old, found, rfl⟩ := Option.map_eq_some_iff.mp current
    refine mem_append_left _ ?_
    simp [exits, found]

theorem next (h : s.Conserved) (e : Event) : (s.next e).Conserved := by
  obtain ⟨gone, move, left⟩ := Scheduler.move_step h.keyed e
  -- the identifiers handed out with the event are those that enter
  have entered (tid : ℕ) : e.enters s.toScheduler = some tid ↔
      s.nextTid ≤ tid ∧ tid < (s.next e).nextTid := by
    rw [show (s.next e).nextTid = _ from s.nextTid_step e]
    cases e with
    | spawn => simp only [enters, Option.some.injEq, Option.isSome_some, if_true]; omega
    | _ => simp [enters]
  have grown : s.nextTid ≤ (s.next e).nextTid := by
    rw [show (s.next e).nextTid = _ from s.nextTid_step e]
    exact Nat.le_add_right _ _
  have conserve (tid : ℕ) : (s.next e).places tid + (if gone = some tid then 1 else 0) =
      s.places tid + if e.enters s.toScheduler = some tid then 1 else 0 := move.places h.once tid
  simp only [entered] at conserve
  -- a thread that has not exited does not leave
  have stays {tid : ℕ} (inside : tid ∉ (s.next e).exited) : gone ≠ some tid := by
    intro same
    rcases left tid same with exits | ⟨thread, current, rfl, dead⟩
    · exact inside (mem_append_left _ exits)
    · exact inside (mem_append_right _ (h.halted thread current dead))
  refine ⟨h.keyed.step e, fun tid => ?_, fun tid created inside => ?_, fun tid later => ?_,
    fun thread => h.halted_next e⟩
  all_goals
    have change := conserve tid
    have once := h.once tid
    have fresh := h.fresh tid
  · split_ifs at change <;> omega
  · rw [if_neg (stays inside)] at change
    by_cases old : tid < s.nextTid
    · rw [h.kept tid old fun exited => inside (mem_append_right _ exited)] at change
      split_ifs at change <;> omega
    · split_ifs at change <;> omega
  · split_ifs at change <;> omega

end Traced.Conserved

/-! ## The dead stay dead -/

/-- No step from `s` to `t` revives one of the threads that have died. -/
structure NoRevival (died : List ℕ) (s t : Scheduler) : Prop where
  notReady : ∀ thread, t.Holds thread → thread.tid ∈ died → thread.state ≠ .ready
  notQueued : ∀ tid ∈ died, tid ∈ t.readyQueue.map Thread.tid → tid ∈ s.readyQueue.map Thread.tid
  notSelected : ∀ thread, t.current = some thread → thread.tid ∈ died → thread.state ≠ .running

/-- The threads that have died are gone, or still current and dead. -/
structure Scheduler.Buries (s : Scheduler) (died : List ℕ) : Prop where
  created : ∀ tid ∈ died, tid < s.nextTid
  unqueued : ∀ tid ∈ died, tid ∉ s.readyQueue.map Thread.tid
  unblocked : ∀ tid ∈ died, s.blockedThreads tid = none
  dead : ∀ thread, s.current = some thread → thread.tid ∈ died → thread.state = .dead

/-- The event neither freezes a queued thread nor gives a dead current thread a new state. -/
def Scheduler.Careful (s : Scheduler) : Event → Prop
  | .freezeProcess pid => ∀ thread ∈ s.readyQueue, thread.pid ≠ pid
  | .preempt _ _ => s.readyQueue ≠ [] → ∀ thread, s.current = some thread → thread.state ≠ .dead
  | .blockCurrentThread _ _ => ∀ thread, s.current = some thread → thread.state ≠ .dead
  | _ => True

namespace Scheduler.Buries

variable {s : Scheduler} {died : List ℕ}

theorem alive (h : s.Buries died) (current : s.current = some thread)
    (alive : thread.state ≠ .dead) : thread.tid ∉ died :=
  fun mem => alive (h.dead thread current mem)

theorem queued (h : s.Buries died) (mem : thread ∈ s.readyQueue) : thread.tid ∉ died :=
  fun dead => h.unqueued _ dead (mem_map_of_mem mem)

/-- Queue and current slot may change as long as no thread that has died gets there. -/
theorem change (h : s.Buries died) {current : Thread}
    (ready : ∀ tid ∈ queue.map Thread.tid, tid ∉ died) (selected : current.tid ∉ died) :
    { s with readyQueue := queue, current := some current }.Buries died := by
  refine ⟨h.created, fun tid dead mem => ready tid mem dead, h.unblocked, ?_⟩
  rintro _ ⟨rfl⟩ dead
  exact absurd dead selected

theorem dequeue (h : s.Buries died) {next : Thread} {rest : List Thread}
    (queue : s.readyQueue = next :: rest) :
    next.tid ∉ died ∧ ∀ tid ∈ rest.map Thread.tid, tid ∉ died := by
  refine ⟨h.queued (by simp [queue]), fun tid mem => ?_⟩
  obtain ⟨thread, behind, rfl⟩ := mem_map.mp mem
  exact h.queued (by simp [queue, behind])

theorem enqueue (ready : ∀ tid ∈ queue.map Thread.tid, tid ∉ died)
    (alive : thread.tid ∉ died) : ∀ tid ∈ (queue ++ [thread]).map Thread.tid, tid ∉ died := by
  intro tid mem
  rw [map_append, mem_append, map_singleton, mem_singleton] at mem
  rcases mem with inside | rfl
  · exact ready tid inside
  · exact alive

theorem block (h : s.Buries died) (alive : thread.tid ∉ died) (blocked : Option Thread) :
    ∀ tid ∈ died, update s.blockedThreads thread.tid blocked tid = none := by
  intro tid dead
  have other : tid ≠ thread.tid := fun same => alive (same ▸ dead)
  rw [update_of_ne other]
  exact h.unblocked tid dead

section

variable (h : s.Buries died) (once : ∀ tid, s.places tid ≤ 1)
  (fresh : ∀ tid, s.nextTid ≤ tid → s.places tid = 0)

include h once fresh

/-- The current thread is in no other place, so without it those that have died and it are gone. -/
theorem kill : { s with current := none }.Buries ((s.current.map tid).toList ++ died) := by
  cases current : s.current with
  | none => exact ⟨h.created, h.unqueued, h.unblocked, nofun⟩
  | some thread =>
    obtain ⟨created, unqueued, unblocked⟩ := unique_of_current once fresh current
    exact ⟨forall_mem_cons.mpr ⟨created, h.created⟩, forall_mem_cons.mpr
      ⟨unqueued, h.unqueued⟩, forall_mem_cons.mpr ⟨unblocked, h.unblocked⟩, nofun⟩

theorem step (keyed : s.Keyed) {e : Event} (careful : s.Careful e) :
    (s.step e).1.Buries (e.kills s ++ died) := by
  have effect := s.step_effect e
  generalize s.step e = result at effect ⊢
  cases effect with
  | idle may =>
    cases e with
    | exitCurrentThread | freezeProcess => exact may.elim
    | _ => exact h
  | spawn new =>
    -- the identifier is new, and threads that have died were created before
    refine ⟨fun tid dead => Nat.lt_succ_of_lt (h.created tid dead), fun tid dead mem => ?_,
      h.unblocked, h.dead⟩
    refine enqueue (fun tid mem dead => h.unqueued tid dead mem) (fun mem => ?_) tid mem
      dead
    rw [Spawn.thread_tid] at mem
    exact absurd (h.created _ mem) (Nat.lt_irrefl _)
  | yieldNow current queue alive =>
    obtain ⟨next, rest⟩ := h.dequeue queue
    have old := h.alive current alive
    exact h.change (enqueue rest old) next
  | @yieldDead rsp _ _ rest current queue dead =>
    obtain ⟨next, behind⟩ := h.dequeue queue
    rw [← map_tid_saveLast rsp] at behind
    exact h.change behind next
  | @preempt rsp old new front back current queue =>
    have alive := h.alive current (careful (by simp [queue]) old current)
    have next : new.tid ∉ died := h.queued (by simp [queue])
    refine h.change (enqueue (fun tid mem dead => h.unqueued tid dead ?_) alive) next
    simp only [queue, map_append, mem_append] at mem ⊢
    tauto
  | preemptNone current queue =>
    have alive := h.alive current (careful queue _ current)
    exact h.change (fun tid mem dead => h.unqueued tid dead mem) alive
  | block current queue =>
    obtain ⟨next, rest⟩ := h.dequeue queue
    have alive := h.alive current (careful _ current)
    refine ⟨h.created, fun tid dead mem => rest tid mem dead, h.block alive _, ?_⟩
    rintro _ ⟨rfl⟩ dead
    exact absurd dead next
  | blockLast current queue =>
    have alive := h.alive current (careful _ current)
    refine ⟨h.created, h.unqueued, h.block alive _, ?_⟩
    rintro _ ⟨⟩
  | @wake tid thread found =>
    -- a thread that has died is not blocked, so it is not the one woken
    have alive : ({ thread with state := .ready } : Thread).tid ∉ died := fun dead => by
      rw [keyed tid thread found] at dead
      rw [h.unblocked tid dead] at found
      cases found
    refine ⟨h.created, fun tid dead mem => ?_, ?_, h.dead⟩
    · exact enqueue (fun tid mem dead => h.unqueued tid dead mem) alive tid mem dead
    · rw [← keyed tid thread found]
      exact h.block alive none
  | @exit next rest queue =>
    have killed := h.kill once fresh
    obtain ⟨alive, behind⟩ := killed.dequeue queue
    exact killed.change behind alive
  | exitLast queue =>
    -- the thread that exits stays current, but dead
    have killed := h.kill once fresh
    refine ⟨killed.created, killed.unqueued, killed.unblocked, fun thread current _ => ?_⟩
    obtain ⟨old, -, rfl⟩ := Option.map_eq_some_iff.mp current
    rfl
  | freeze pid =>
    have nobody : kills s (.freezeProcess pid) = [] := by
      simpa [kills, Careful] using careful
    rw [nobody]
    refine ⟨h.created, fun tid dead mem => ?_, h.unblocked, h.dead⟩
    rw [map_tid_freezeProcess] at mem
    exact h.unqueued tid dead mem

end

end Scheduler.Buries

/-! ## Runs -/

/-- Nothing has happened yet: the threads created so far are in one place each, and none
is dead. -/
structure Traced.Started (s : Traced) : Prop where
  keyed : s.Keyed
  placed : ∀ tid, s.places tid = if tid < s.nextTid then 1 else 0
  alive : ∀ thread, s.Holds thread → thread.state ≠ .dead
  exited : s.exited = []
  died : s.died = []
  saved : ∀ thread, s.Holds thread → thread.stackPtr = s.lastOut thread.tid

def Traced.Careful (s : Traced) (e : Event) : Prop := s.toScheduler.Careful e

variable {s : Traced}

theorem Traced.Started.conserved (h : s.Started) : s.Conserved := by
  refine ⟨h.keyed, fun tid => ?_, fun tid created _ => ?_, fun tid later => ?_, ?_⟩
  · rw [h.placed]
    split_ifs <;> omega
  · rw [h.placed, if_pos created]
  · rw [h.placed, if_neg (by omega)]
  · exact fun thread current dead => absurd dead (h.alive thread (.inl current))

/-- Threads are conserved, and those that have died are buried. -/
def Traced.Orderly (s : Traced) : Prop := s.Conserved ∧ s.toScheduler.Buries s.died

theorem Traced.Started.orderly (h : s.Started) : s.Orderly := by
  refine ⟨h.conserved, ?_⟩
  rw [h.died]
  exact ⟨by simp, by simp, by simp, by simp⟩

theorem Scheduler.Buries.noRevival {s t : Scheduler} {killed died : List ℕ}
    (h : t.Buries (killed ++ died)) (keyed : t.Keyed) : NoRevival died s t := by
  have old {tid : ℕ} (dead : tid ∈ died) : tid ∈ killed ++ died := mem_append_right _ dead
  refine ⟨fun thread held dead => ?_, fun tid dead queued => ?_, fun thread current dead => ?_⟩
  · rcases held with current | queued | ⟨tid, blocked⟩
    · simp [h.dead thread current (old dead)]
    · exact absurd (old dead) (h.queued queued)
    rw [keyed tid thread blocked] at dead
    rw [h.unblocked tid (old dead)] at blocked
    cases blocked
  · exact absurd queued (h.unqueued tid (old dead))
  · simp [h.dead thread current (old dead)]

/-- In every run without careless events, each thread that has not exited is in exactly
one place, and no step makes a thread that has died ready, queues it or selects it. -/
theorem threads_run {s t : Traced} {events : List Event} (start : s.Started)
    (run : Run (Guarded Traced.Careful Traced.Step) s events t) :
    (∀ tid, tid < t.nextTid → tid ∉ t.exited → t.places tid = 1) ∧
      ∀ e u, t.Careful e → t.Step e u → NoRevival t.died t.toScheduler u.toScheduler := by
  have reached : t.Orderly := by
    refine run.invariant ?_ start.orderly
    rintro s e _ ⟨careful, rfl⟩ ⟨h, buries⟩
    exact ⟨h.next e, buries.step h.once h.fresh h.keyed careful⟩
  obtain ⟨h, buries⟩ := reached
  refine ⟨h.kept, ?_⟩
  rintro e _ careful rfl
  exact (buries.step h.once h.fresh h.keyed careful).noRevival (h.keyed.step e)

def Traced.init : Traced where
  toScheduler := Scheduler.init
  exited := []
  died := []
  lastOut := fun _ => 0

theorem Traced.init_started : Traced.init.Started := by
  have held {thread : Thread} (holds : Traced.init.Holds thread) : thread = bootThread := by
    rcases holds with current | queued | ⟨tid, blocked⟩
    · exact (Option.some.inj current).symm
    · cases queued
    · cases blocked
  refine ⟨fun tid thread blocked => (by cases blocked), fun tid => ?_, fun thread holds => ?_, rfl,
    rfl, fun thread holds => ?_⟩
  · have boot : Traced.init.slots = ⟨some 0, [], fun _ => false⟩ := rfl
    have next : Traced.init.nextTid = 1 := rfl
    rw [Scheduler.places, boot, next]
    cases tid <;> simp [Slots.places]
  · rw [held holds]
    decide
  · rw [held holds]
    rfl

/-- A thread is spawned, runs and exits. -/
theorem threads_run_exit : ∃ t, Run (Guarded Traced.Careful Traced.Step) Traced.init
    [.spawn (.kernel 0x100000), .yieldNow 0x9000, .exitCurrentThread] t ∧
      (∀ tid, tid < t.nextTid → tid ∉ t.exited → t.places tid = 1) ∧
      ∀ e u, t.Careful e → t.Step e u → NoRevival t.died t.toScheduler u.toScheduler := by
  have run : Run (Guarded Traced.Careful Traced.Step) Traced.init
      [.spawn (.kernel 0x100000), .yieldNow 0x9000, .exitCurrentThread] _ :=
    .cons ⟨trivial, rfl⟩ (.cons ⟨trivial, rfl⟩ (.cons ⟨trivial, rfl⟩ (.nil _)))
  exact ⟨_, run, threads_run Traced.init_started run⟩

/-- A frozen thread is dead, but it is selected all the same. -/
theorem not_threads_run : ¬∀ (s t : Traced) (events : List Event), s.Started →
    Run Traced.Step s events t → (∀ tid, tid < t.nextTid → tid ∉ t.exited → t.places tid = 1) ∧
      ∀ e u, t.Step e u → NoRevival t.died t.toScheduler u.toScheduler := by
  intro claim
  have frozen := (claim Traced.init _ [.spawn (.user 5 0x100000 0x2000), .freezeProcess 5]
    Traced.init_started (.cons rfl (.cons rfl (.nil _)))).2 (.yieldNow 0x9000) _ rfl
  exact frozen.notSelected { Spawn.thread 1 (.user 5 0x100000 0x2000) with state := .running } rfl
    (by decide) rfl

end SmartOs.Process
