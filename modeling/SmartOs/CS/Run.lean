/-
# Runs of labelled transition systems

A system is a relation `step s e t`: in state `s` the event `e` can lead to `t`. A run
is a finite sequence of steps. The rules here carry facts about one step to whole runs:
an invariant that steps preserve holds at the end, and a step-by-step simulation by
another system maps runs to runs.

`Guarded good step` is the system in which every step also meets the condition `good` on
the event and the state it happens in.
-/

import Mathlib.Init

namespace SmartOs.CS

variable {σ τ ε : Type}

/-- A run from `s` to `t` along the events `es`. -/
inductive Run (step : σ → ε → σ → Prop) : σ → List ε → σ → Prop
  | nil (s : σ) : Run step s [] s
  | cons {s t u : σ} {e : ε} {es : List ε} :
      step s e t → Run step t es u → Run step s (e :: es) u

/-- The steps of a system that meet a condition on the state and the event. -/
def Guarded (good : σ → ε → Prop) (step : σ → ε → σ → Prop) : σ → ε → σ → Prop :=
  fun s e t => good s e ∧ step s e t

namespace Run

variable {step : σ → ε → σ → Prop} {s t u : σ} {es : List ε} {inv : σ → Prop}

/-- What every step preserves holds at the end of a run if it holds at the start. -/
theorem invariant (preserved : ∀ {s e t}, step s e t → inv s → inv t) (run : Run step s es t)
    (start : inv s) : inv t := by
  induction run with
  | nil s => exact start
  | cons first _ ih => exact ih (preserved first start)

/-- A simulation maps every run to a run of the other system with the same events. -/
theorem simulate {astep : τ → ε → τ → Prop} (rel : σ → τ → Prop) {a : τ}
    (simulates : ∀ {s e t a}, step s e t → rel s a → ∃ b, astep a e b ∧ rel t b)
    (run : Run step s es t) (start : rel s a) : ∃ b, Run astep a es b ∧ rel t b := by
  induction run generalizing a with
  | nil s => exact ⟨a, .nil a, start⟩
  | cons first _ ih =>
    obtain ⟨b, next, related⟩ := simulates first start
    obtain ⟨c, rest, last⟩ := ih related
    exact ⟨c, .cons next rest, last⟩

/-- Along an invariant the steps of one system may be steps of another one too. -/
theorem transfer {astep : σ → ε → σ → Prop}
    (steps : ∀ {s e t}, inv s → step s e t → astep s e t ∧ inv t) (run : Run step s es t)
    (start : inv s) : Run astep s es t := by
  induction run with
  | nil s => exact .nil s
  | cons first _ ih =>
    obtain ⟨next, kept⟩ := steps start first
    exact .cons next (ih kept)

/-- All states that a run comes to are right exactly if its steps meet a condition, when this is so
for each single step from a state of the invariant. -/
theorem guarded_iff {right : σ → Prop} {good : σ → ε → Prop}
    (single : ∀ {s e t}, inv s → step s e t → (right t ↔ good s e) ∧ (good s e → inv t))
    (start : inv s) :
    Run (fun s e t => step s e t ∧ right t) s es t ↔ Run (Guarded good step) s es t := by
  constructor
  · refine fun run => run.transfer (fun {s e t} inv first => ?_) start
    obtain ⟨iff, kept⟩ := single inv first.1
    exact ⟨⟨iff.mp first.2, first.1⟩, kept (iff.mp first.2)⟩
  · refine fun run => run.transfer (fun {s e t} inv first => ?_) start
    obtain ⟨iff, kept⟩ := single inv first.2
    exact ⟨⟨first.2, iff.mpr first.1⟩, kept first.1⟩

/-- Executing a step function event by event gives a run. -/
theorem of_foldlM {next : σ → ε → Option σ} (executed : es.foldlM next s = some t) :
    Run (fun s e t => next s e = some t) s es t := by
  induction es generalizing s with
  | nil =>
    cases executed
    exact .nil _
  | cons e es ih =>
    obtain ⟨u, first, rest⟩ := Option.bind_eq_some_iff.mp executed
    exact .cons first (ih rest)

variable {good : σ → ε → Prop} {next : σ → ε → σ}

/-- Executing a total step function while a condition holds gives a guarded run. -/
theorem guarded_of_foldlM [∀ s e, Decidable (good s e)]
    (executed : es.foldlM (fun s e => if good s e then some (next s e) else none) s = some t) :
    Run (Guarded good fun s e t => next s e = t) s es t := by
  refine @transfer σ ε _ s t es (fun _ => True) _ (fun {s e t} _ first => ⟨?_, trivial⟩)
    (of_foldlM executed) trivial
  split at first
  next holds => exact ⟨holds, Option.some.inj first⟩
  · cases first

/-- The same, where only that the condition holds on the way has to be computed. -/
theorem guarded_foldl [∀ s e, Decidable (good s e)]
    (executed : (es.foldlM (fun s e => if good s e then some (next s e) else none) s).isSome) :
    Run (Guarded good fun s e t => next s e = t) s es (es.foldl next s) := by
  induction es generalizing s with
  | nil => exact .nil s
  | cons e es ih =>
    rw [List.foldlM_cons] at executed
    by_cases holds : good s e
    · rw [if_pos holds] at executed
      exact .cons ⟨holds, rfl⟩ (ih executed)
    · rw [if_neg holds] at executed
      cases executed

/-- What each step has to fulfil is fulfilled all along an execution exactly if the steps meet a
condition, when this is so for each single step from a state of the invariant. -/
theorem foldl_guarded_iff {fulfils : σ → ε → Prop}
    (single : ∀ {s e}, inv s → (fulfils s e ↔ good s e))
    (preserved : ∀ {s e}, inv s → good s e → inv (next s e)) (start : inv s) :
    (∀ front e, front ++ [e] <+: es → fulfils (front.foldl next s) e) ↔
      Run (Guarded good fun s e t => next s e = t) s es (es.foldl next s) := by
  induction es generalizing s with
  | nil =>
    constructor
    · intro _
      exact .nil s
    · intro _ front e isPrefix
      exact absurd (List.prefix_nil.mp isPrefix) (by simp)
  | cons first es ih =>
    constructor
    · intro all
      have good : good s first := (single start).mp (all [] first ⟨es, rfl⟩)
      refine .cons ⟨good, rfl⟩ ((ih (preserved start good)).mp ?_)
      intro front e isPrefix
      exact all (first :: front) e (List.cons_prefix_cons.mpr ⟨rfl, isPrefix⟩)
    · rintro (_ | ⟨⟨good, rfl⟩, rest⟩) front e isPrefix
      cases front with
      | nil =>
        obtain ⟨rfl, -⟩ := List.cons_prefix_cons.mp isPrefix
        exact (single start).mpr good
      | cons d front =>
        obtain ⟨rfl, within⟩ := List.cons_prefix_cons.mp isPrefix
        exact (ih (preserved start good)).mpr rest front e within

end Run

end SmartOs.CS
