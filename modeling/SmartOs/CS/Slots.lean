/-
# A current slot, a queue and a waiting set

The bookkeeping of a single processor: at most one item is current, some wait in a queue
for their turn and some are set aside until they are woken. `Move` lists the ways in which
such a system passes items around. Each of them conserves items: `places` counts how often
an item occurs, and a move changes the count only for the item that leaves the system and
the one that enters it.
-/

import Mathlib.Data.List.Count

namespace SmartOs.CS

open List

/-- Where the items are. -/
structure Slots (τ : Type) where
  current : Option τ
  ready : List τ
  waiting : τ → Bool

namespace Slots

variable {τ : Type} [DecidableEq τ]

def places (q : Slots τ) (x : τ) : ℕ :=
  (if q.current = some x then 1 else 0) + q.ready.count x + if q.waiting x then 1 else 0

/-- One step; `gone` leaves the system with it and `come` enters it. -/
inductive Move : (gone come : Option τ) → Slots τ → Slots τ → Prop
  | stay (q : Slots τ) : Move none none q q
  /-- A queued item becomes current and the current one goes to the back of the queue. -/
  | switch (old new : τ) (front back : List τ) (w : τ → Bool) :
      Move none none ⟨some old, front ++ new :: back, w⟩ ⟨some new, front ++ back ++ [old], w⟩
  /-- The current item leaves and the next one takes its place. -/
  | replace (c : Option τ) (new : τ) (rest : List τ) (w : τ → Bool) :
      Move c none ⟨c, new :: rest, w⟩ ⟨some new, rest, w⟩
  /-- The current item waits; the next one, if any, takes its place. -/
  | wait (old : τ) (rest : List τ) (w : τ → Bool) :
      Move none none ⟨some old, rest, w⟩ ⟨rest.head?, rest.tail, Function.update w old true⟩
  | wake (c : Option τ) (l : List τ) (w : τ → Bool) (x : τ) (waits : w x) :
      Move none none ⟨c, l, w⟩ ⟨c, l ++ [x], Function.update w x false⟩
  | enter (c : Option τ) (l : List τ) (w : τ → Bool) (x : τ) :
      Move none (some x) ⟨c, l, w⟩ ⟨c, l ++ [x], w⟩

variable {q : Slots τ}

theorem not_mem_of_places {x : τ} (absent : q.places x = 0) :
    x ∉ q.ready ∧ q.waiting x = false := by
  unfold places at absent
  constructor
  · intro mem
    have := count_pos_iff.mpr mem
    omega
  · by_contra waits
    rw [if_pos (eq_true_of_ne_false waits)] at absent
    omega

theorem unique_of_current {x : τ} (once : q.places x ≤ 1) (current : q.current = some x) :
    x ∉ q.ready ∧ q.waiting x = false := by
  -- without the current slot nothing is left of the one place
  have elsewhere : places ⟨none, q.ready, q.waiting⟩ x = 0 := by
    simp only [places, current, if_true, reduceCtorEq, if_false] at once ⊢
    omega
  have apart := not_mem_of_places elsewhere
  exact apart

theorem Move.places {gone come : Option τ} {q' : Slots τ} (move : Move gone come q q')
    (once : ∀ x, q.places x ≤ 1) (x : τ) : q'.places x + (if gone = some x then 1 else 0) =
      q.places x + if come = some x then 1 else 0 := by
  cases move with
  | stay => rfl
  | switch old new front back w =>
    simp only [places, count_append, count_cons, count_nil, beq_iff_eq, Option.some.injEq]
    omega
  | replace c new rest w =>
    simp only [places, count_cons, beq_iff_eq, Option.some.injEq, reduceCtorEq, if_false]
    omega
  | wait old rest w =>
    have dequeued : (if rest.head? = some x then 1 else 0) + rest.tail.count x = rest.count x := by
      cases rest with
      | nil => rfl
      | cons new rest =>
        simp only [head?_cons, tail_cons, count_cons, beq_iff_eq, Option.some.injEq]
        omega
    simp only [places, Function.update_apply, dequeued]
    by_cases same : x = old
    · -- a current item is not waiting yet, so the update really adds a place
      subst same
      have idle : w x = false := (unique_of_current (once x) rfl).2
      simp only [idle, if_true, reduceCtorEq, if_false]
      omega
    · simp [same, Ne.symm same]
  | wake c l w y waits =>
    simp only [places, Function.update_apply, count_append, count_singleton, beq_iff_eq]
    by_cases same : x = y
    · subst same
      simp only [waits, if_true, reduceCtorEq, if_false]
      omega
    · simp [same, Ne.symm same]
  | enter c l w y =>
    simp only [places, count_append, count_singleton, beq_iff_eq, Option.some.injEq,
      reduceCtorEq, if_false]
    omega

end Slots

end SmartOs.CS
