/-
# Bounded waiting

Threads wait in the ready queue in the order in which they came. An event can add threads behind
them and take threads out, but it puts none ahead. So a waiting thread has the processor at the
latest when as many threads as were ahead of it, and one more, have been taken from the front of
the queue, whatever else happens meanwhile.

The timer interrupt does not count: it takes the first user thread, wherever that one is, and
passes over the kernel threads.
-/

import SmartOs.Process.Scheduler

namespace SmartOs.Process.Scheduler

open List

/-- The thread is in the queue, with `n` others ahead of it. -/
def Ready (s : Scheduler) (tid n : ℕ) : Prop := (s.readyQueue.map Thread.tid)[n]? = some tid

def Runs (s : Scheduler) (tid : ℕ) : Prop := s.current.map Thread.tid = some tid

/-- The event gives the processor to the first thread of the queue. -/
def dispatches (s : Scheduler) : Event → Bool
  | .preempt .. => false
  | e => (s.step e).2.isSome

def dispatchCount (s : Scheduler) : List Event → ℕ
  | [] => 0
  | e :: events => (s.dispatches e).toNat + dispatchCount (s.step e).1 events

/-- The thread has the processor, or it has moved up if the first one of the queue has it. -/
def Advances (s : Scheduler) (e : Event) (tid n : ℕ) (t : Scheduler) : Prop :=
  t.Runs tid ∨ ∃ m, t.Ready tid m ∧ m + (s.dispatches e).toNat ≤ n

variable {s t : Scheduler} {tid n : ℕ} {e : Event}

theorem getElem?_of_prefix {xs ys : List ℕ} (within : xs <+: ys) (found : xs[n]? = some tid) :
    ys[n]? = some tid := by
  obtain ⟨more, rfl⟩ := within
  rw [getElem?_append_left (List.getElem?_eq_some_iff.mp found).1, found]

theorem Ready.stays (ready : s.Ready tid n) (idle : s.dispatches e = false)
    (within : s.readyQueue.map Thread.tid <+: t.readyQueue.map Thread.tid) : s.Advances e tid n t :=
  .inr ⟨n, getElem?_of_prefix within ready, by simp [idle]⟩

theorem Ready.popped {new : Thread} {rest : List Thread} (ready : s.Ready tid n)
    (queue : s.readyQueue = new :: rest) (current : t.Runs new.tid)
    (within : rest.map Thread.tid <+: t.readyQueue.map Thread.tid) : s.Advances e tid n t := by
  rw [Ready, queue, map_cons] at ready
  cases n with
  | zero => exact .inl (Option.some.inj ready ▸ current)
  | succ m =>
    exact .inr ⟨m, getElem?_of_prefix within ready, Nat.add_le_add_left (Bool.toNat_le _) m⟩

/-- No event puts a thread ahead of one that waits. -/
theorem Ready.step (ready : s.Ready tid n) (e : Event) : s.Advances e tid n (s.step e).1 := by
  have effect := s.step_effect e
  have switched : s.dispatches e → (s.step e).2.isSome := by
    cases e <;> simp [dispatches]
  generalize s.step e = result at effect switched ⊢
  have idle (none : result.2 = none) : s.dispatches e = false := by
    simpa [none] using switched
  cases effect with
  | idle | preemptNone | exitLast | blockLast => exact ready.stays (idle rfl) prefix_rfl
  | spawn | wake => exact ready.stays (idle rfl) (by simp [spawn])
  | freeze pid =>
    have kept : (s.freezeProcess pid).readyQueue.map Thread.tid = s.readyQueue.map Thread.tid := by
      rw [freezeProcess, map_map]
      exact map_congr_left fun thread _ => by dsimp only [Function.comp]; split_ifs <;> rfl
    exact ready.stays rfl (kept ▸ prefix_rfl)
  | yieldNow _ queue => exact ready.popped queue rfl (by simp)
  | yieldDead _ queue => exact ready.popped queue rfl (by simp [map_tid_saveLast])
  | block _ queue | exit queue => exact ready.popped queue rfl prefix_rfl
  | @preempt rsp old new front back current queue =>
    -- a thread behind the one that is taken moves up by a place, and one ahead stays
    rw [Ready, queue, map_append, map_cons] at ready
    rcases Nat.lt_trichotomy n front.length with ahead | rfl | behind
    · rw [getElem?_append_left (by simpa using ahead)] at ready
      exact .inr ⟨n, getElem?_of_prefix (by simp) ready, Nat.le_refl n⟩
    · rw [getElem?_append_right (by simp)] at ready
      exact .inl (by simpa [Runs] using ready)
    · obtain ⟨m, rfl⟩ := Nat.exists_eq_add_of_lt behind
      rw [getElem?_append_right (by simp; omega), length_map, Nat.add_assoc,
        Nat.add_sub_cancel_left, getElem?_cons_succ] at ready
      refine .inr ⟨front.length + m, ?_, by simp [dispatches]⟩
      rw [Ready, map_append, map_append, append_assoc, getElem?_append_right (by simp)]
      simpa using getElem?_of_prefix (prefix_append ..) ready

/-- From any state and with any events, a thread with `n` others ahead of it has the processor at
the latest when the first one of the queue is taken for the `n + 1`st time. -/
theorem runs_of_ready (events : List Event) (ready : s.Ready tid n)
    (enough : n < s.dispatchCount events) :
    ∃ front, front <+: events ∧ (front.foldl (fun s e => (s.step e).1) s).Runs tid := by
  induction events generalizing s n with
  | nil => cases enough
  | cons e events ih =>
    rw [dispatchCount] at enough
    rcases ready.step e with runs | ⟨m, ready, moved⟩
    · exact ⟨[e], by simp, runs⟩
    · obtain ⟨front, isPrefix, runs⟩ := ih ready (by omega)
      exact ⟨e :: front, cons_prefix_cons.mpr ⟨rfl, isPrefix⟩, runs⟩

/-- The second of two new threads, while the boot thread and the first one give way. -/
theorem runs_of_ready_second : ∃ front, front <+: [.yieldNow 0, .preempt true 0, .yieldNow 0] ∧
    (front.foldl (fun s e => (s.step e).1)
      ((Scheduler.init.spawn (.kernel 0)).spawn (.kernel 0))).Runs 2 :=
  runs_of_ready _ (show Ready _ 2 1 from rfl) (by decide)

end SmartOs.Process.Scheduler
