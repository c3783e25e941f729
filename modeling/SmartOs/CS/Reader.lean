/-
# Readers and their input

A stateful computation that reads an input is described by what it does to an abstract
input: `Runs` says that it succeeds with a value and leaves a certain rest, `Fails` that it
returns an error. Many readers succeed exactly under a condition on the input; `Decides`
carries that condition through sequences and loops.

`loop` repeats a body that either goes on with a new value or is done. The body comes with a
measure that it decreases, so the loop is a total function.
-/

import Mathlib.Data.Nat.Notation
import SmartOs.CS.StateError

namespace SmartOs.CS

variable {ε σ τ α β : Type}

/-- From every state that represents `t`, the computation succeeds with `a` in a state that
represents `t'`. -/
def Runs (rep : σ → τ → Prop) (x : EStateM ε σ α) (t : τ) (a : α) (t' : τ) : Prop :=
  ∀ s, rep s t → ∃ s', x s = .ok a s' ∧ rep s' t'

/-- From every state that represents `t`, the computation returns an error. -/
def Fails (rep : σ → τ → Prop) (x : EStateM ε σ α) (t : τ) : Prop :=
  ∀ s, rep s t → ∃ e s', x s = .error e s'

/-- The computation runs if `p` holds and fails otherwise. -/
structure Decides (rep : σ → τ → Prop) (p : Prop) (x : EStateM ε σ α) (t : τ) (a : α) (t' : τ) :
    Prop where
  runs : p → Runs rep x t a t'
  fails : ¬ p → Fails rep x t

section Sequences

variable {rep : σ → τ → Prop} {x : EStateM ε σ α} {f : α → EStateM ε σ β} {t t' t'' : τ}
  {a : α} {b : β} {p q : Prop}

theorem Runs.pure (a : α) (t : τ) : Runs rep (pure a : EStateM ε σ α) t a t :=
  fun s represents => ⟨s, rfl, represents⟩

theorem Runs.bind (first : Runs rep x t a t') (second : Runs rep (f a) t' b t'') :
    Runs rep (x >>= f) t b t'' := by
  intro s represents
  obtain ⟨s', ran, represents'⟩ := first s represents
  rw [bind_of_ok ran]
  exact second s' represents'

theorem Runs.bind_fails (first : Runs rep x t a t') (second : Fails rep (f a) t') :
    Fails rep (x >>= f) t := by
  intro s represents
  obtain ⟨s', ran, represents'⟩ := first s represents
  rw [bind_of_ok ran]
  exact second s' represents'

theorem Fails.bind (first : Fails rep x t) : Fails rep (x >>= f) t := by
  intro s represents
  obtain ⟨e, s', failed⟩ := first s represents
  exact ⟨e, s', bind_of_error failed⟩

theorem Fails.throw (e : ε) (t : τ) : Fails rep (throw e : EStateM ε σ α) t :=
  fun s _ => ⟨e, s, rfl⟩

theorem Runs.decides (runs : Runs rep x t a t') : Decides rep True x t a t' :=
  ⟨fun _ => runs, fun never => absurd trivial never⟩

theorem Decides.congr (decides : Decides rep p x t a t') (iff : p ↔ q) : Decides rep q x t a t' :=
  ⟨fun holds => decides.runs (iff.mpr holds), fun fails => decides.fails (mt iff.mp fails)⟩

theorem Decides.bind (first : Decides rep p x t a t') (second : Decides rep q (f a) t' b t'') :
    Decides rep (p ∧ q) (x >>= f) t b t'' where
  runs := fun ⟨left, right⟩ => (first.runs left).bind (second.runs right)
  fails := by
    intro fails
    by_cases left : p
    · exact (first.runs left).bind_fails (second.fails fun right => fails ⟨left, right⟩)
    · exact (first.fails left).bind

/-- A first part that always succeeds does not change the condition. -/
theorem Runs.bind_decides (first : Runs rep x t a t') (second : Decides rep q (f a) t' b t'') :
    Decides rep q (x >>= f) t b t'' :=
  (first.decides.bind second).congr (iff_of_eq (true_and q))

/-- A last part that always succeeds does not change the condition. -/
theorem Decides.bind_runs (first : Decides rep p x t a t') (second : Runs rep (f a) t' b t'') :
    Decides rep p (x >>= f) t b t'' :=
  (first.bind second.decides).congr (iff_of_eq (and_true p))

end Sequences

/-! ## Consumption -/

/-- When the computation succeeds, it decreases the measure by at least `k`. -/
def Consumes (measure : σ → ℕ) (k : ℕ) (x : EStateM ε σ α) : Prop :=
  ∀ ⦃s a s'⦄, x s = .ok a s' → measure s' + k ≤ measure s

section Consumption

variable {measure : σ → ℕ} {x : EStateM ε σ α} {f : α → EStateM ε σ β} {j k : ℕ}

theorem Consumes.pure (a : α) : Consumes measure 0 (pure a : EStateM ε σ α) := by
  rintro s _ _ ⟨⟩
  exact Nat.le_refl _

theorem Consumes.throw (e : ε) : Consumes measure k (throw e : EStateM ε σ α) := by
  rintro s _ _ ⟨⟩

theorem Consumes.mono (consumes : Consumes measure k x) (less : j ≤ k) : Consumes measure j x := by
  intro s a s' ok
  have enough := consumes ok
  omega

theorem Consumes.bind (first : Consumes measure j x) (second : ∀ a, Consumes measure k (f a)) :
    Consumes measure (j + k) (x >>= f) := by
  intro s b s'' ok
  obtain ⟨a, s', ran, rest⟩ := bind_eq_ok_iff.mp ok
  have start := first ran
  have finish := second a rest
  omega

/-- The first part of a sequence already consumes enough. -/
theorem Consumes.bind_left (first : Consumes measure k x)
    (second : ∀ a, Consumes measure 0 (f a)) : Consumes measure k (x >>= f) :=
  first.bind second

end Consumption

/-! ## Loops -/

/-- Every round of the body that goes on decreases the measure. -/
def Shrinks (measure : α → σ → ℕ) (body : α → EStateM ε σ (α ⊕ β)) : Prop :=
  ∀ ⦃a s a' s'⦄, body a s = .ok (.inl a') s' → measure a' s' < measure a s

/-- Repeat the body from a state on. -/
def loopFrom (measure : α → σ → ℕ) (body : α → EStateM ε σ (α ⊕ β)) (shrinks : Shrinks measure body)
    (a : α) (s : σ) : EStateM.Result ε σ β :=
  match _ : body a s with
  | .ok (.inl a') s' => loopFrom measure body shrinks a' s'
  | .ok (.inr b) s' => .ok b s'
  | .error e s' => .error e s'
termination_by measure a s
decreasing_by exact shrinks (by assumption)

/-- Repeat the body until it is done. -/
def loop (measure : α → σ → ℕ) (body : α → EStateM ε σ (α ⊕ β)) (shrinks : Shrinks measure body)
    (a : α) : EStateM ε σ β :=
  loopFrom measure body shrinks a

section Loops

variable {measure : α → σ → ℕ} {body : α → EStateM ε σ (α ⊕ β)} {shrinks : Shrinks measure body}
  {rep : σ → τ → Prop} {t t' t'' : τ} {a a' : α} {b : β} {p q : Prop}

theorem loop_eq : loop measure body shrinks a =
    body a >>= fun next => next.elim (loop measure body shrinks) pure := by
  funext s
  rw [loop, loopFrom]
  split
  iterate 2
    · rename_i round
      rw [bind_of_ok round]
      rfl
  · rename_i round
    exact (bind_of_error round).symm

theorem Decides.loop_more (round : Decides rep p (body a) t (.inl a') t')
    (rest : Decides rep q (loop measure body shrinks a') t' b t'') :
    Decides rep (p ∧ q) (loop measure body shrinks a) t b t'' := by
  rw [loop_eq]
  exact round.bind rest

theorem Decides.loop_done (round : Decides rep p (body a) t (.inr b) t') :
    Decides rep p (loop measure body shrinks a) t b t' := by
  rw [loop_eq]
  exact round.bind_runs (Runs.pure b t')

/-- A loop does not increase what its body never increases. -/
theorem Consumes.loop {size : σ → ℕ} (rounds : ∀ a, Consumes size 0 (body a)) (a : α) :
    Consumes size 0 (loop measure body shrinks a) := by
  intro s b s' ok
  -- induction on the measure of the loop, which the body need not share with `size`
  induction bound : measure a s using Nat.strongRecOn generalizing a s with
  | _ n ih =>
    rw [loop_eq] at ok
    obtain ⟨next, s₁, round, rest⟩ := bind_eq_ok_iff.mp ok
    have first := rounds a round
    cases next with
    | inl a' =>
      have later := ih (measure a' s₁) (bound ▸ shrinks round) a' rest rfl
      omega
    | inr b' =>
      obtain ⟨-, rfl⟩ := pure_eq_ok_iff.mp rest
      exact first

end Loops

end SmartOs.CS
