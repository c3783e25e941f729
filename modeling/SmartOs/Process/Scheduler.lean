/-
# The scheduler

Threads are in the current slot, in the ready queue or in the map of blocked threads. Each
operation runs with the scheduler locked and interrupts off, so it is one step. A context
switch saves the stack pointer of the running code through a pointer that the operation
has chosen; the operations here take that stack pointer as an argument and do the write.
`try_lock` in the interrupt paths may fail, which is an argument too.
-/

import Mathlib.Data.List.Basic

namespace SmartOs.Process

open List

inductive ThreadState where
  | ready
  | running
  | blocked
  | dead
  deriving DecidableEq

inductive ProcessState where
  | running
  | zombie
  deriving DecidableEq

/-- A kernel or user thread, as far as the scheduler reads it. -/
structure Thread where
  tid : ℕ
  pid : ℕ
  state : ThreadState
  stackPtr : UInt64
  kernelStackPtr : UInt64
  isUser : Bool
  cr3 : UInt64
  deriving DecidableEq

/-- Why a thread is blocked. -/
inductive WaitReason where
  | sleep (wakeAtTick : ℕ)
  | waitPid (targetPid : ℕ)
  | pipeRead (pipeId : ℕ)
  deriving DecidableEq

structure WaitEntry where
  tid : ℕ
  reason : WaitReason
  deriving DecidableEq

/-- The scheduler, together with `WAIT_QUEUE` and `NEXT_TID`. -/
structure Scheduler where
  readyQueue : List Thread
  current : Option Thread
  blockedThreads : ℕ → Option Thread
  initialized : Bool
  waitQueue : List WaitEntry
  nextTid : ℕ

/-- What a context switch loads. The kernel stack is for the next entry from user mode and
is set for user threads only. -/
structure Switch where
  newSp : UInt64
  newCr3 : UInt64
  newKernelRsp : UInt64
  isUser : Bool
  deriving DecidableEq

def Thread.switch (thread : Thread) : Switch :=
  ⟨thread.stackPtr, thread.cr3, thread.kernelStackPtr, thread.isUser⟩

/-! ## New threads -/

/-- The top of a stack in memory at `base`, aligned down to 16 bytes. -/
def stackTop (base size : UInt64) : UInt64 := (base + size) &&& ~~~15

/-- The ways to make a thread; `stack` is the address of the memory allocated for it. -/
inductive Spawn where
  | kernel (stack : UInt64)
  | large (stack : UInt64)
  | user (pid : ℕ) (stack cr3 : UInt64)
  | forked (pid : ℕ) (stack cr3 : UInt64)

/-- `Thread::new`, `Thread::new_large`, `Thread::new_user` and the thread that
`fork_current_thread` builds. -/
def Spawn.thread (tid : ℕ) : Spawn → Thread
  | .kernel stack => ⟨tid, 0, .ready, stackTop stack (4096 * 32) - 8 * 7, 0, false, 0⟩
  | .large stack => ⟨tid, 0, .ready, stackTop stack (4096 * 128) - 8 * 7, 0, false, 0⟩
  | .user pid stack cr3 =>
    ⟨tid, pid, .ready, stackTop stack (4096 * 32) - 20 * 8, stackTop stack (4096 * 32), true, cr3⟩
  | .forked pid stack cr3 =>
    ⟨tid, pid, .ready, stack + 4096 * 4 - 20 * 8, stack + 4096 * 4, true, cr3⟩

theorem Spawn.thread_tid (tid : ℕ) (new : Spawn) : (new.thread tid).tid = tid := by
  cases new <;> rfl

/-- The execution context in which the kernel boots. -/
def bootThread : Thread := ⟨0, 0, .running, 0, 0, false, 0⟩

variable (rsp : UInt64) (s : Scheduler) (queue : List Thread)

namespace Scheduler

def init : Scheduler where
  readyQueue := []
  current := some bootThread
  blockedThreads := fun _ => none
  initialized := true
  waitQueue := []
  nextTid := 1

/-! ## Operations -/

/-- Queue a new thread. -/
def spawn (new : Spawn) (s : Scheduler) : Scheduler :=
  { s with readyQueue := s.readyQueue ++ [new.thread s.nextTid], nextTid := s.nextTid + 1 }

/-- Save the stack pointer where `yield_now` does: in the last thread of the queue, unless
that one is dead. The index of an empty queue's last thread wraps around, and nothing is
found there. -/
def saveLast : List Thread :=
  let oldIdx := queue.length - 1
  match queue[oldIdx]? with
  | none => queue
  | some last =>
    if last.state = .dead then queue
    else queue.modify oldIdx fun thread => { thread with stackPtr := rsp }

/-- Give the processor to the next ready thread. -/
def yieldNow : Scheduler × Option Switch :=
  if !s.initialized || s.readyQueue.isEmpty then (s, none)
  else
    match s.current, s.readyQueue with
    | some oldThread, newThread :: rest =>
      -- a dead thread is dropped
      let queue :=
        if oldThread.state ≠ .dead then rest ++ [{ oldThread with state := .ready }] else rest
      ({ s with
          readyQueue := saveLast rsp queue
          current := some { newThread with state := .running } }, some newThread.switch)
    | _, _ => (s, none)

/-- Mark the current thread as dead and switch to the next one. Without a next one the
dead thread stays current and halts. -/
def exitCurrentThread : Scheduler × Option Switch :=
  match s.readyQueue with
  | [] =>
    ({ s with current := s.current.map fun thread => { thread with state := .dead } }, none)
  | next :: rest =>
    ({ s with readyQueue := rest, current := some { next with state := .running } },
      some next.switch)

/-- Take the first thread out of a queue that has a property. -/
def removeFirst (p : Thread → Bool) : List Thread → Option (Thread × List Thread)
  | [] => none
  | thread :: rest =>
    if p thread then some (thread, rest)
    else (removeFirst p rest).map fun (found, rest) => (found, thread :: rest)

/-- The timer interrupt takes the processor away, if a user thread is ready. -/
def preempt (unlocked : Bool) (interruptedRsp : UInt64) (s : Scheduler) :
    Scheduler × Option Switch :=
  if !unlocked || !s.initialized || s.readyQueue.isEmpty then (s, none)
  else
    match s.current with
    | none => (s, none)
    | some oldThread =>
      let oldThread := { oldThread with stackPtr := interruptedRsp, state := .ready }
      match removeFirst (·.isUser) s.readyQueue with
      -- only kernel threads are ready: the old thread goes on, with its new stack pointer
      | none => ({ s with current := some { oldThread with state := .running } }, none)
      | some (newThread, rest) =>
        ({ s with
            readyQueue := rest ++ [oldThread]
            current := some { newThread with state := .running } }, some newThread.switch)

/-- Block the current thread and switch to the next ready one. The stack pointer goes to a
local variable, so it is not an argument. -/
def blockCurrentThread (reason : WaitReason) (s : Scheduler) : Scheduler × Option Switch :=
  if !s.initialized then (s, none)
  else
    match s.current with
    | none => (s, none)
    | some thread =>
      let blocked := Function.update s.blockedThreads thread.tid
        (some { thread with state := .blocked })
      let waitQueue := s.waitQueue ++ [⟨thread.tid, reason⟩]
      match s.readyQueue with
      -- the call just returns, with the current slot empty
      | [] => ({ s with current := none, blockedThreads := blocked, waitQueue }, none)
      | next :: rest =>
        ({ s with
            readyQueue := rest
            current := some { next with state := .running }
            blockedThreads := blocked
            waitQueue }, some next.switch)

def wakeThread (unlocked : Bool) (tid : ℕ) (s : Scheduler) : Scheduler :=
  if !unlocked then s
  else
    match s.blockedThreads tid with
    | none => s
    | some thread =>
      { s with
        blockedThreads := Function.update s.blockedThreads tid none
        readyQueue := s.readyQueue ++ [{ thread with state := .ready }] }

/-- `freeze_process`: despite its name, mark the queued threads of a process dead. -/
def freezeProcess (pid : ℕ) (s : Scheduler) : Scheduler :=
  { s with readyQueue := s.readyQueue.map fun thread =>
      if thread.pid = pid then { thread with state := .dead } else thread }

end Scheduler

/-! ## Events -/

/-- A call of a scheduler operation. Where the operation may switch, `rsp` is the stack
pointer of the running code at the switch. -/
inductive Event where
  | spawn (new : Spawn)
  | yieldNow (rsp : UInt64)
  | preempt (unlocked : Bool) (rsp : UInt64)
  | blockCurrentThread (reason : WaitReason) (rsp : UInt64)
  | wakeThread (unlocked : Bool) (tid : ℕ)
  | exitCurrentThread
  | freezeProcess (pid : ℕ)

/-- The state after an event and the switch it makes, if any. -/
def Scheduler.step : Event → Scheduler × Option Switch
  | .spawn new => (s.spawn new, none)
  | .yieldNow rsp => s.yieldNow rsp
  | .preempt unlocked rsp => s.preempt unlocked rsp
  | .blockCurrentThread reason _ => s.blockCurrentThread reason
  | .wakeThread unlocked tid => (s.wakeThread unlocked tid, none)
  | .exitCurrentThread => s.exitCurrentThread
  | .freezeProcess pid => (s.freezeProcess pid, none)

/-! ## What an event can do -/

/-- The operation may return without having done anything. -/
def Event.MayReturn : Event → Prop
  | .spawn _ | .exitCurrentThread | .freezeProcess _ => False
  | _ => True

namespace Scheduler

/-- Everything an event can do. -/
inductive Effect (s : Scheduler) : Event → Scheduler × Option Switch → Prop
  | idle {e : Event} (may : e.MayReturn) : Effect s e (s, none)
  | spawn (new : Spawn) : Effect s (.spawn new) (s.spawn new, none)
  | yieldNow {rsp : UInt64} {old new : Thread} {rest : List Thread} (current : s.current = some old)
      (queue : s.readyQueue = new :: rest) (alive : old.state ≠ .dead) :
      Effect s (.yieldNow rsp)
        ({ s with
            readyQueue := rest ++ [{ old with state := .ready, stackPtr := rsp }]
            current := some { new with state := .running } }, some new.switch)
  | yieldDead {rsp : UInt64} {old new : Thread} {rest : List Thread}
      (current : s.current = some old) (queue : s.readyQueue = new :: rest)
      (dead : old.state = .dead) :
      Effect s (.yieldNow rsp)
        ({ s with
            readyQueue := saveLast rsp rest
            current := some { new with state := .running } }, some new.switch)
  | preempt {rsp : UInt64} {old new : Thread} {front back : List Thread}
      (current : s.current = some old) (queue : s.readyQueue = front ++ new :: back) :
      Effect s (.preempt true rsp)
        ({ s with
            readyQueue := front ++ back ++ [{ old with stackPtr := rsp, state := .ready }]
            current := some { new with state := .running } }, some new.switch)
  | preemptNone {rsp : UInt64} {old : Thread} (current : s.current = some old)
      (queue : s.readyQueue ≠ []) :
      Effect s (.preempt true rsp)
        ({ s with current := some { old with stackPtr := rsp, state := .running } }, none)
  | block {reason : WaitReason} {rsp : UInt64} {thread next : Thread} {rest : List Thread}
      (current : s.current = some thread) (queue : s.readyQueue = next :: rest) :
      Effect s (.blockCurrentThread reason rsp)
        ({ s with
            readyQueue := rest
            current := some { next with state := .running }
            blockedThreads := Function.update s.blockedThreads thread.tid
              (some { thread with state := .blocked })
            waitQueue := s.waitQueue ++ [⟨thread.tid, reason⟩] }, some next.switch)
  | blockLast {reason : WaitReason} {rsp : UInt64} {thread : Thread}
      (current : s.current = some thread) (queue : s.readyQueue = []) :
      Effect s (.blockCurrentThread reason rsp)
        ({ s with
            current := none
            blockedThreads := Function.update s.blockedThreads thread.tid
              (some { thread with state := .blocked })
            waitQueue := s.waitQueue ++ [⟨thread.tid, reason⟩] }, none)
  | wake {tid : ℕ} {thread : Thread} (found : s.blockedThreads tid = some thread) :
      Effect s (.wakeThread true tid)
        ({ s with
            blockedThreads := Function.update s.blockedThreads tid none
            readyQueue := s.readyQueue ++ [{ thread with state := .ready }] }, none)
  | exit {next : Thread} {rest : List Thread} (queue : s.readyQueue = next :: rest) :
      Effect s .exitCurrentThread
        ({ s with readyQueue := rest, current := some { next with state := .running } },
          some next.switch)
  | exitLast (queue : s.readyQueue = []) :
      Effect s .exitCurrentThread
        ({ s with current := s.current.map fun thread => { thread with state := .dead } }, none)
  | freeze (pid : ℕ) : Effect s (.freezeProcess pid) (s.freezeProcess pid, none)

theorem saveLast_append (last : Thread) : saveLast rsp (queue ++ [last]) = queue ++ [if last.state =
    .dead then last else { last with stackPtr := rsp }] := by
  unfold saveLast
  simp only [length_append, length_singleton, Nat.add_sub_cancel,
    getElem?_append_right (Nat.le_refl _), Nat.sub_self, getElem?_cons_zero]
  split_ifs
  · rfl
  · simp [modify_eq_take_cons_drop]

theorem map_tid_saveLast : (saveLast rsp queue).map Thread.tid = queue.map Thread.tid := by
  rcases eq_nil_or_concat' queue with rfl | ⟨queue, last, rfl⟩
  · rfl
  · rw [saveLast_append, map_append, map_append]
    split_ifs <;> rfl

theorem removeFirst_eq_some {p : Thread → Bool} {queue rest : List Thread} {thread : Thread}
    (found : removeFirst p queue = some (thread, rest)) :
    ∃ front back, queue = front ++ thread :: back ∧ rest = front ++ back := by
  induction queue generalizing rest with
  | nil => cases found
  | cons first queue ih =>
    rw [removeFirst] at found
    split_ifs at found
    · cases found
      exact ⟨[], queue, rfl, rfl⟩
    obtain ⟨⟨_, left⟩, later, same⟩ := Option.map_eq_some_iff.mp found
    cases same
    obtain ⟨front, back, rfl, rfl⟩ := ih later
    exact ⟨first :: front, back, rfl, rfl⟩

theorem step_effect (e : Event) : Effect s e (s.step e) := by
  cases e with
  | spawn new => exact .spawn new
  | yieldNow rsp =>
    simp only [step, yieldNow]
    split_ifs with off
    · exact .idle trivial
    cases current : s.current with
    | none => exact .idle trivial
    | some old =>
      cases queue : s.readyQueue with
      | nil => exact .idle trivial
      | cons new rest =>
        -- a live thread is last in the queue when its stack pointer is saved there
        by_cases dead : old.state = .dead
        · simpa [dead] using Effect.yieldDead current queue dead
        · simpa [dead, saveLast_append] using Effect.yieldNow current queue dead
  | preempt unlocked rsp =>
    simp only [step, preempt]
    split_ifs with off
    · exact .idle trivial
    simp only [Bool.or_eq_true, Bool.not_eq_true', not_or, Bool.not_eq_false,
      List.isEmpty_iff] at off
    obtain ⟨⟨rfl, -⟩, nonempty⟩ := off
    cases current : s.current with
    | none => exact .idle trivial
    | some old =>
      cases found : removeFirst (·.isUser) s.readyQueue with
      | none => exact .preemptNone current nonempty
      | some result =>
        obtain ⟨new, rest⟩ := result
        obtain ⟨front, back, queue, rfl⟩ := removeFirst_eq_some found
        exact .preempt current queue
  | blockCurrentThread reason rsp =>
    simp only [step, blockCurrentThread]
    split_ifs with off
    · exact .idle trivial
    cases current : s.current with
    | none => exact .idle trivial
    | some thread =>
      cases queue : s.readyQueue with
      | nil => simpa [queue] using Effect.blockLast current queue
      | cons next rest => exact .block current queue
  | wakeThread unlocked tid =>
    simp only [step, wakeThread]
    split_ifs with off
    · exact .idle trivial
    obtain rfl : unlocked := by simpa using off
    cases found : s.blockedThreads tid with
    | none => exact .idle trivial
    | some thread => exact .wake found
  | exitCurrentThread =>
    simp only [step, exitCurrentThread]
    cases queue : s.readyQueue with
    | nil => simpa [queue] using Effect.exitLast queue
    | cons next rest => exact .exit queue
  | freezeProcess pid => exact .freeze pid

end Scheduler

end SmartOs.Process
