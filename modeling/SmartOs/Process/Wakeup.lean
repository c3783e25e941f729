/-
# Blocking and waking

A thread that blocks is entered into the wait queue and then moved to the map of blocked threads.
To wake threads, the timer, the exit of a process and the writer of a pipe first take entries out
of the wait queue and then move the threads back, one by one. The wait queue, the process table
and the scheduler have a lock each, and every section that holds one is a step here.

A wakeup is lost in two ways. `waitpid` does not look whether the process has already exited, and
`wake_thread` gives up if the scheduler is locked, when the entry is already gone. Without these
two no wakeup is lost in any interleaving.
-/

import SmartOs.CS.Extents
import SmartOs.CS.Run
import SmartOs.Process.Scheduler

namespace SmartOs.Process

open CS List Function

variable {r : Scheduler × Option Switch} {thread : Thread} {s : Scheduler}

/-! ## The system -/

/-- The scheduler with its wait queue, the states of the processes, and what is under way: the
thread that `block_current_thread` holds between its two sections, the processes that are zombies
but whose waiters have not been looked for, and the threads that are out of the wait queue but
have not been woken. -/
structure WaitSystem where
  scheduler : Scheduler
  processes : ℕ → Option ProcessState
  registering : Option Thread
  exiting : List ℕ
  woken : List ℕ

/-- One critical section. -/
inductive Section where
  /-- another operation of the scheduler -/
  | sched (e : Event)
  /-- `block_current_thread` up to the entry in the wait queue -/
  | register (reason : WaitReason)
  /-- the rest of `block_current_thread` -/
  | park
  /-- `check_wakeups` -/
  | timer (currentTick : ℕ)
  /-- `exit_process_full` up to the end of its work on the process table -/
  | exit (pid : ℕ)
  /-- `wake_waiters_for_pid` in `exit_process_full` -/
  | notify (pid : ℕ)
  /-- `wake_pipe_readers` -/
  | pipe (pipeId : ℕ)
  /-- `wake_thread` for a thread that one of the three has returned -/
  | wake (unlocked : Bool) (tid : ℕ)
  /-- a new entry in the process table -/
  | start (pid : ℕ)
  /-- `reap_zombie` -/
  | reap (pid : ℕ)

/-- The operations of the scheduler that neither block nor wake. -/
def Event.Plain : Event → Bool
  | .blockCurrentThread .. | .wakeThread .. => false
  | _ => true

variable {e : Event}

namespace Scheduler

/-- The threads that run or are ready are not in the state `Blocked`. -/
def Awake (s : Scheduler) : Prop :=
  ∀ thread, s.current = some thread ∨ thread ∈ s.readyQueue → thread.state ≠ .blocked

theorem mem_saveLast {rsp : UInt64} {queue : List Thread}
    (mem : thread ∈ saveLast rsp queue) : ∃ old ∈ queue, old.state = thread.state := by
  rcases eq_nil_or_concat' queue with rfl | ⟨queue, last, rfl⟩
  · cases mem
  rw [saveLast_append, mem_append, mem_singleton] at mem
  rcases mem with front | rfl
  · exact ⟨thread, mem_append_left _ front, rfl⟩
  · refine ⟨last, mem_append_right _ (mem_singleton_self last), ?_⟩
    split_ifs <;> rfl

/-- An operation that neither blocks nor wakes leaves the blocked threads and their entries. -/
theorem Effect.plain (effect : Effect s e r)
    (plain : e.Plain) : r.1.blockedThreads = s.blockedThreads ∧ r.1.waitQueue = s.waitQueue := by
  cases effect with
  | block | blockLast | wake => cases plain
  | _ => exact ⟨rfl, rfl⟩

theorem Awake.of_effect (awake : s.Awake)
    (effect : Effect s e r) (plain : e.Plain) : r.1.Awake := by
  have ready : ∀ thread ∈ s.readyQueue, thread.state ≠ .blocked :=
    fun thread mem => awake thread (.inr mem)
  rintro thread (current | mem)
  · cases effect with
    | idle | spawn | freeze => exact awake thread (.inl current)
    | yieldNow | yieldDead | preempt | preemptNone | exit =>
      cases current
      exact nofun
    | block | blockLast | wake => cases plain
    | exitLast =>
      obtain ⟨old, -, rfl⟩ := Option.map_eq_some_iff.mp current
      exact nofun
  · revert thread
    cases effect with
    | idle | preemptNone | exitLast => exact ready
    | spawn new =>
      exact forall_mem_append.mpr ⟨ready, forall_mem_singleton.mpr (by cases new <;> exact nofun)⟩
    | yieldNow _ queue =>
      rw [queue] at ready
      exact forall_mem_append.mpr ⟨(forall_mem_cons.mp ready).2, forall_mem_singleton.mpr nofun⟩
    | yieldDead _ queue =>
      intro thread mem
      obtain ⟨old, before, same⟩ := mem_saveLast mem
      exact same ▸ ready old (queue ▸ mem_cons_of_mem _ before)
    | preempt _ queue =>
      rw [queue] at ready
      obtain ⟨front, others⟩ := forall_mem_append.mp ready
      exact forall_mem_append.mpr ⟨forall_mem_append.mpr ⟨front, (forall_mem_cons.mp others).2⟩,
        forall_mem_singleton.mpr nofun⟩
    | block | blockLast | wake => cases plain
    | exit queue =>
      rw [queue] at ready
      exact (forall_mem_cons.mp ready).2
    | freeze pid =>
      refine forall_mem_map.mpr fun old before => ?_
      split_ifs
      · exact nofun
      · exact ready old before

end Scheduler

namespace WaitSystem

/-- Before any process or thread is started. -/
def init : WaitSystem where
  scheduler := Scheduler.init
  processes := update (fun _ => none) 0 (some .running)
  registering := none
  exiting := []
  woken := []

/-- Take the entries with the given reasons out of the wait queue. -/
def scan (due : WaitReason → Bool) (s : WaitSystem) : WaitSystem :=
  { s with
    scheduler := { s.scheduler with
      waitQueue := s.scheduler.waitQueue.filter fun entry => !due entry.reason }
    woken := s.woken ++ (s.scheduler.waitQueue.filter fun entry => due entry.reason).map
      WaitEntry.tid }

/-- Sleeping until a tick that has come. -/
def expired (currentTick : ℕ) : WaitReason → Bool
  | .sleep wakeAtTick => wakeAtTick ≤ currentTick
  | _ => false

/-- Waiting for the process, or for any. -/
def waitsFor (targetPid : ℕ) : WaitReason → Bool
  | .waitPid tp => tp == targetPid || tp == 0
  | _ => false

def reads (pipeId : ℕ) : WaitReason → Bool
  | .pipeRead pid => pid == pipeId
  | _ => false

def register (reason : WaitReason) (s : WaitSystem) : WaitSystem :=
  if !s.scheduler.initialized then s
  else
    match s.scheduler.current with
    | none => s
    | some thread =>
      { s with
        scheduler := { s.scheduler with
          current := none
          waitQueue := s.scheduler.waitQueue ++ [⟨thread.tid, reason⟩] }
        registering := some { thread with state := .blocked } }

def park (thread : Thread) (s : WaitSystem) : WaitSystem :=
  let blocked := update s.scheduler.blockedThreads thread.tid (some thread)
  { s with
    registering := none
    scheduler :=
      match s.scheduler.readyQueue with
      | [] => { s.scheduler with blockedThreads := blocked }
      | next :: rest =>
        { s.scheduler with
          blockedThreads := blocked
          readyQueue := rest
          current := some { next with state := .running } } }

/-- The state after a section; there is none if the section cannot run now. While a thread is
half blocked, the scheduler is locked: other operations wait, and `wake_thread` gives up. -/
def step (s : WaitSystem) : Section → Option WaitSystem
  | .sched e =>
    if s.registering.isNone ∧ e.Plain then
      some { s with scheduler := (s.scheduler.step e).1 }
    else none
  | .register reason => if s.registering.isNone then some (s.register reason) else none
  | .park => s.registering.map fun thread => s.park thread
  | .timer currentTick => some (s.scan (expired currentTick))
  | .exit pid =>
    some (if (s.processes pid).isNone then s else { s with
        processes := update s.processes pid (some .zombie)
        exiting := pid :: s.exiting })
  | .notify pid =>
    if pid ∈ s.exiting then some { s.scan (waitsFor pid) with exiting := s.exiting.erase pid }
    else none
  | .pipe pipeId => some (s.scan (reads pipeId))
  | .wake unlocked tid =>
    if tid ∈ s.woken then
      some { s with
        scheduler := s.scheduler.wakeThread (unlocked && s.registering.isNone) tid
        woken := s.woken.erase tid }
    else none
  | .start pid => some { s with processes := update s.processes pid (some .running) }
  | .reap pid =>
    some (if s.processes pid = some .zombie then
      { s with processes := update s.processes pid none } else s)

/-! ## The property -/

/-- A thread in the state `Blocked`, wherever it is. -/
def Blocked (s : WaitSystem) (thread : Thread) : Prop :=
  thread.state = .blocked ∧ (s.registering = some thread ∨ s.scheduler.current = some thread ∨
    thread ∈ s.scheduler.readyQueue ∨ ∃ tid, s.scheduler.blockedThreads tid = some thread)

/-- Blocked threads are in the wait queue, and do not wait for zombies. -/
structure NoLostWakeup (s : WaitSystem) : Prop where
  entry : ∀ {thread}, s.Blocked thread → ∃ e ∈ s.scheduler.waitQueue, e.tid = thread.tid
  alive : ∀ {thread e t}, s.Blocked thread → e ∈ s.scheduler.waitQueue → e.tid = thread.tid →
    e.reason = .waitPid t → s.processes t ≠ some .zombie

/-- No section of a wakeup is still to come. -/
structure Settled (s : WaitSystem) : Prop where
  exiting : s.exiting = []
  woken : s.woken = []

/-- What keeps wakeups from being lost: no thread waits for a process that has already woken its
waiters, and `wake_thread` finds the scheduler unlocked. -/
def Careful (s : WaitSystem) : Section → Prop
  | .register (.waitPid t) => s.processes t = some .zombie → t ∈ s.exiting
  | .wake unlocked _ => unlocked ∧ s.registering = none
  | _ => True

/-! ## The invariant -/

/-- What holds in between: the wakeup of a blocked thread without an entry is under way, and so is
that of the waiters of a zombie. -/
structure Watched (s : WaitSystem) : Prop where
  keyed : ∀ {tid thread}, s.scheduler.blockedThreads tid = some thread → thread.tid = tid
  awake : s.scheduler.Awake
  covered : ∀ {thread}, s.registering = some thread ∨
      s.scheduler.blockedThreads thread.tid = some thread →
    (∃ e ∈ s.scheduler.waitQueue, e.tid = thread.tid) ∨ thread.tid ∈ s.woken
  waiting : ∀ {e t}, e ∈ s.scheduler.waitQueue → e.reason = .waitPid t →
    s.processes t = some .zombie → t ∈ s.exiting

theorem watched_init : Watched init where
  keyed found := by cases found
  awake := by
    rintro thread (current | ready)
    · cases current
      decide
    · cases ready
  covered := by
    rintro thread (held | found)
    · cases held
    · cases found
  waiting member := by cases member

namespace Watched

variable {s t : WaitSystem}

section

variable (watched : Watched s)
include watched

/-- Once no wakeup is under way, the invariant is the property. -/
theorem noLostWakeup (settled : Settled s) : NoLostWakeup s := by
  have entered {thread : Thread} (held : s.registering = some thread ∨
      s.scheduler.blockedThreads thread.tid = some thread) :
      ∃ e ∈ s.scheduler.waitQueue, e.tid = thread.tid := by
    rcases watched.covered held with entry | under
    · exact entry
    · rw [settled.woken] at under
      cases under
  refine ⟨fun {thread} blocked => ?_, fun {thread e t} _ mem _ reason zombie => ?_⟩
  · obtain ⟨state, held | current | ready | ⟨tid, found⟩⟩ := blocked
    · exact entered (.inl held)
    · exact absurd state (watched.awake _ (.inl current))
    · exact absurd state (watched.awake _ (.inr ready))
    · exact entered (.inr (watched.keyed found ▸ found))
  · have under := watched.waiting mem reason zombie
    rw [settled.exiting] at under
    cases under

theorem sched (plain : e.Plain) : Watched { s with scheduler := (s.scheduler.step e).1 } := by
  obtain ⟨blocked, queue⟩ := (s.scheduler.step_effect e).plain plain
  refine ⟨?_, watched.awake.of_effect (s.scheduler.step_effect e) plain, ?_, ?_⟩
  · rw [blocked]
    exact watched.keyed
  · rw [blocked, queue]
    exact watched.covered
  · rw [queue]
    exact watched.waiting

theorem register {reason : WaitReason}
    (careful : Careful s (.register reason)) : Watched (s.register reason) := by
  rw [WaitSystem.register]
  split_ifs
  · exact watched
  cases current : s.scheduler.current with
  | none => exact watched
  | some thread =>
    refine ⟨watched.keyed, ?_, ?_, ?_⟩
    · rintro other (none | ready)
      · cases none
      · exact watched.awake other (.inr ready)
    · rintro other (held | found)
      · cases held
        exact .inl ⟨⟨thread.tid, reason⟩, mem_append_right _ (mem_singleton_self _), rfl⟩
      · rcases watched.covered (.inr found) with ⟨e, member, same⟩ | under
        · exact .inl ⟨e, mem_append_left _ member, same⟩
        · exact .inr under
    · rintro e t member waits zombie
      rcases mem_append.mp member with old | new
      · exact watched.waiting old waits zombie
      rw [mem_singleton.mp new] at waits
      cases waits
      exact careful zombie

theorem park (held : s.registering = some thread) : Watched (s.park thread) := by
  have keyed {tid : ℕ} {other : Thread} (found : update s.scheduler.blockedThreads
      thread.tid (some thread) tid = some other) : other.tid = tid := by
    rcases update_eq_some_iff.mp found with ⟨rfl, ⟨⟩⟩ | ⟨-, old⟩
    · rfl
    · exact watched.keyed old
  have covered {other : Thread} (found : update s.scheduler.blockedThreads
      thread.tid (some thread) other.tid = some other) :
      (∃ e ∈ s.scheduler.waitQueue, e.tid = other.tid) ∨ other.tid ∈ s.woken := by
    rcases update_eq_some_iff.mp found with ⟨-, ⟨⟩⟩ | ⟨-, old⟩
    · exact watched.covered (.inl held)
    · exact watched.covered (.inr old)
  rw [WaitSystem.park]
  cases queue : s.scheduler.readyQueue with
  | nil =>
    refine ⟨keyed, ?_, ?_, watched.waiting⟩
    · exact watched.awake
    rintro other (none | found)
    · cases none
    · exact covered found
  | cons next rest =>
    refine ⟨keyed, ?_, ?_, watched.waiting⟩
    · rintro other (current | ready)
      · cases current
        exact nofun
      · exact watched.awake other (.inr (queue ▸ mem_cons_of_mem _ ready))
    · rintro other (none | found)
      · cases none
      · exact covered found

/-- Entries that are taken out of the queue belong to threads that are woken next. -/
theorem scan (due : WaitReason → Bool) : Watched (s.scan due) := by
  refine ⟨watched.keyed, watched.awake, fun {thread} place => ?_, fun member => ?_⟩
  · rcases watched.covered place with ⟨e, member, same⟩ | under
    · by_cases now : due e.reason
      · exact .inr (mem_append_right _ (mem_map.mpr ⟨e, mem_filter.mpr ⟨member, now⟩, same⟩))
      · exact .inl ⟨e, mem_filter.mpr ⟨member, by simpa using now⟩, same⟩
    · exact .inr (mem_append_left _ under)
  · exact watched.waiting (mem_filter.mp member).1

theorem exit (pid : ℕ) : Watched { s with
      processes := update s.processes pid (some .zombie)
      exiting := pid :: s.exiting } := by
  refine ⟨watched.keyed, watched.awake, watched.covered, fun {e t} mem waits zombie => ?_⟩
  by_cases same : t = pid
  · exact same ▸ mem_cons_self
  · exact mem_cons_of_mem _ (watched.waiting mem waits ((update_of_ne same _ _).symm.trans zombie))

theorem notify (pid : ℕ) :
    Watched { s.scan (waitsFor pid) with exiting := s.exiting.erase pid } := by
  have scanned := watched.scan (waitsFor pid)
  refine ⟨scanned.keyed, scanned.awake, scanned.covered, fun {e t} mem waits zombie => ?_⟩
  have other : t ≠ pid := by
    rintro rfl
    have kept := (mem_filter.mp mem).2
    rw [waits] at kept
    simp [waitsFor] at kept
  exact (mem_erase_of_ne other).mpr (scanned.waiting mem waits zombie)

/-- With the scheduler unlocked, the thread leaves the blocked threads together with the list. -/
theorem wake (idle : s.registering = none) (tid : ℕ) : Watched { s with
      scheduler := s.scheduler.wakeThread true tid
      woken := s.woken.erase tid } := by
  have covered {thread : Thread} (other : thread.tid ≠ tid)
      (found : s.scheduler.blockedThreads thread.tid = some thread) :
      (∃ e ∈ s.scheduler.waitQueue, e.tid = thread.tid) ∨ thread.tid ∈ s.woken.erase tid :=
    (watched.covered (.inr found)).imp_right (mem_erase_of_ne other).mpr
  rw [Scheduler.wakeThread]
  cases blocked : s.scheduler.blockedThreads tid with
  | none =>
    refine ⟨watched.keyed, watched.awake, ?_, watched.waiting⟩
    rintro thread (held | found)
    · cases idle.symm.trans held
    refine covered ?_ found
    rintro rfl
    cases blocked.symm.trans found
  | some thread =>
    refine ⟨fun {other thread'} found => ?_, ?_, ?_, watched.waiting⟩
    · rcases update_eq_some_iff.mp found with ⟨-, ⟨⟩⟩ | ⟨-, old⟩
      exact watched.keyed old
    · rintro other (current | ready)
      · exact watched.awake other (.inl current)
      rcases mem_append.mp ready with old | new
      · exact watched.awake other (.inr old)
      · rw [mem_singleton.mp new]
        exact ThreadState.noConfusion
    · rintro other (held | found)
      · cases idle.symm.trans held
      · rcases update_eq_some_iff.mp found with ⟨-, ⟨⟩⟩ | ⟨ne, old⟩
        exact covered ne old

/-- Processes that start or are reaped are no zombies. -/
theorem processes {pid : ℕ} {state : Option ProcessState} (alive : state ≠ some .zombie) :
    Watched { s with processes := update s.processes pid state } := by
  refine ⟨watched.keyed, watched.awake, watched.covered, fun {e t} mem waits zombie => ?_⟩
  by_cases same : t = pid
  · cases same
    exact absurd ((update_self _ _ _).symm.trans zombie) alive
  · exact watched.waiting mem waits ((update_of_ne same _ _).symm.trans zombie)

theorem step {part : Section} (careful : Careful s part)
    (done : s.step part = some t) : Watched t := by
  cases part with
  | sched e =>
    rw [WaitSystem.step] at done
    split_ifs at done with free
    cases done
    exact watched.sched free.2
  | register reason =>
    rw [WaitSystem.step] at done
    split_ifs at done
    cases done
    exact watched.register careful
  | park =>
    obtain ⟨thread, held, rfl⟩ := Option.map_eq_some_iff.mp done
    exact watched.park held
  | timer | pipe =>
    cases done
    exact watched.scan _
  | exit pid =>
    cases done
    split_ifs
    · exact watched
    · exact watched.exit pid
  | notify pid =>
    rw [WaitSystem.step] at done
    split_ifs at done
    cases done
    exact watched.notify pid
  | wake unlocked tid =>
    obtain ⟨rfl, idle⟩ := careful
    rw [WaitSystem.step] at done
    split_ifs at done
    cases done
    have free : (true && s.registering.isNone) := by rw [idle]; rfl
    rw [free]
    exact watched.wake idle tid
  | start pid =>
    cases done
    exact watched.processes nofun
  | reap pid =>
    cases done
    split_ifs
    · exact watched.processes nofun
    · exact watched

end

end Watched

/-- In every interleaving in which no thread starts to wait for a process that has already woken
its waiters, and in which `wake_thread` finds the scheduler unlocked, no wakeup is lost. -/
theorem run_noLostWakeup {sections : List Section} {s : WaitSystem}
    (run : Run (Guarded Careful fun s part t => s.step part = some t) init sections s)
    (settled : Settled s) : NoLostWakeup s := by
  have watched : Watched s :=
    run.invariant (fun taken watched => watched.step taken.1 taken.2) watched_init
  exact watched.noLostWakeup settled

/-- One thread waits for a process and is woken by its exit, then another one goes to sleep. -/
theorem sleeper_noLostWakeup : ∃ s, Run (Guarded Careful fun s part t => s.step part = some t) init
      [.start 5, .sched (.spawn (.kernel 0)), .register (.waitPid 5), .park, .exit 5, .notify 5,
        .wake true 0, .register (.sleep 100), .park] s ∧
      Settled s ∧ (s.scheduler.blockedThreads 1).isSome ∧ NoLostWakeup s := by
  have both {p q : Prop} (first : p) (follows : p → q) : p ∧ q := ⟨first, follows first⟩
  refine ⟨_, both (.cons ⟨trivial, rfl⟩ (.cons ⟨trivial, rfl⟩ (.cons ⟨?_, rfl⟩ (.cons ⟨trivial, rfl⟩
    (.cons ⟨trivial, rfl⟩ (.cons ⟨trivial, rfl⟩ (.cons ⟨⟨rfl, rfl⟩, rfl⟩ (.cons ⟨trivial, rfl⟩
    (.cons ⟨trivial, rfl⟩ (.nil _))))))))))
    fun run => ⟨⟨rfl, rfl⟩, rfl, run_noLostWakeup run ⟨rfl, rfl⟩⟩⟩
  exact nofun

/-- The process exits, and then a thread waits for it: nothing will wake it. -/
theorem waiter_for_zombie : ∃ s, Run (fun s part t => s.step part = some t) init
      [.start 5, .sched (.spawn (.kernel 0)), .exit 5, .notify 5, .register (.waitPid 5), .park] s ∧
      Settled s ∧ ¬ NoLostWakeup s := by
  refine ⟨_, .cons rfl (.cons rfl (.cons rfl (.cons rfl (.cons rfl (.cons rfl (.nil _)))))),
    ⟨rfl, rfl⟩, fun kept => ?_⟩
  exact kept.alive (e := ⟨0, .waitPid 5⟩) (t := 5)
    (show Blocked _ { bootThread with state := .blocked } from ⟨rfl, .inr (.inr (.inr ⟨0, rfl⟩))⟩)
    (mem_singleton_self _) rfl rfl rfl

end WaitSystem

end SmartOs.Process
