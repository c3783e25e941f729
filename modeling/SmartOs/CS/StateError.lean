/-
# Computations with state and errors

Rules for taking an `EStateM` computation apart: what a sequence does when its first
part succeeds or fails, and what must have happened when a sequence succeeded. The
state survives an error, which is what separates `EStateM` from `StateT` over
`Except`.
-/

import Mathlib.Order.Defs.Unbundled

namespace SmartOs.CS

variable {ε σ α β : Type}
variable {a : α} {f : α → EStateM ε σ β} {s' : σ} {x : EStateM ε σ α} {e : ε} {b : β}
  {items : List α}

variable {s : σ}

theorem bind_of_ok (first : x s = .ok a s') : (x >>= f) s = f a s' := by
  simp [bind, EStateM.bind, first]

theorem bind_of_error (first : x s = .error e s') : (x >>= f) s = .error e s' := by
  simp [bind, EStateM.bind, first]

/-- A sequence depends on the outcome of its first part only. -/
theorem bind_congr_apply {y : EStateM ε σ α} {t : σ} (same : x s = y t) :
    (x >>= f) s = (y >>= f) t := by
  simp [bind, EStateM.bind, same]

theorem bind_eq_ok_iff {s'' : σ} :
    (x >>= f) s = .ok b s'' ↔ ∃ a s', x s = .ok a s' ∧ f a s' = .ok b s'' := by
  constructor
  · intro success
    cases first : x s with
    | ok a s' => exact ⟨a, s', rfl, by rwa [bind_of_ok first] at success⟩
    | error e s' => rw [bind_of_error first] at success; cases success
  · rintro ⟨a, s', first, second⟩
    rw [bind_of_ok first, second]

@[simp] theorem modify_apply (f : σ → σ) (s : σ) :
    (modify f : EStateM ε σ PUnit) s = .ok () (f s) := rfl

@[simp] theorem pure_apply (a : α) (s : σ) : (pure a : EStateM ε σ α) s = .ok a s := rfl

@[simp] theorem throw_apply : (throw e : EStateM ε σ α) s = .error e s := rfl

@[simp] theorem get_bind_apply (f : σ → EStateM ε σ β) (s : σ) : (get >>= f) s = f s s := rfl

theorem toOption_eq_some_iff {x : Except ε α} : x.toOption = some a ↔ x = .ok a := by
  cases x <;> simp [Except.toOption]

theorem toOption_eq_none_iff {x : Except ε α} : x.toOption = none ↔ ∃ e, x = .error e := by
  cases x <;> simp [Except.toOption]

/-! ## Errors without state -/

theorem except_bind_eq_ok_iff {x : Except ε α} {f : α → Except ε β} :
    x >>= f = .ok b ↔ ∃ a, x = .ok a ∧ f a = .ok b := by
  cases x <;> simp [bind, Except.bind]

theorem forM_eq_ok_iff {f : α → Except ε Unit} :
    List.forM items f = .ok () ↔ ∀ item ∈ items, f item = .ok () := by
  induction items with
  | nil => simp [pure, Except.pure]
  | cons item items ih =>
    change (f item >>= fun _ => List.forM items f) = .ok () ↔ _
    rw [except_bind_eq_ok_iff, List.forall_mem_cons, ← ih]
    exact ⟨fun ⟨_, first, rest⟩ => ⟨first, rest⟩, fun ⟨first, rest⟩ => ⟨(), first, rest⟩⟩

/-- How a computation stops before it returns: by a panic, or with an error. -/
inductive Abort (ε : Type) where
  | panic
  | error (e : ε)
  deriving DecidableEq

/-! ## Parts of the state -/

/-- The value, or an error if there is none. -/
def orThrow (value : Option α) (missing : ε) : EStateM ε σ α :=
  match value with
  | none => throw missing
  | some a => pure a

variable {missing : ε} {value : Option α}

theorem orThrow_eq_ok_iff :
    (orThrow value missing : EStateM ε σ α) s = .ok a s' ↔ value = some a ∧ s = s' := by
  cases value <;> simp [orThrow]

/-- Run a computation on a part of the state that may be missing. -/
def zoom {τ : Type} (part : σ → Option τ) (put : τ → σ → σ) (missing : ε) (x : EStateM ε τ α) :
    EStateM ε σ α := fun s =>
  match part s with
  | none => .error missing s
  | some t =>
    match x t with
    | .ok a t' => .ok a (put t' s)
    | .error e t' => .error e (put t' s)

@[simp] theorem orThrow_some_bind (a : α) (missing : ε) (f : α → EStateM ε σ β) (s : σ) :
    (orThrow (some a) missing >>= f) s = f a s := rfl

@[simp] theorem orThrow_none_bind (missing : ε) (f : α → EStateM ε σ β) (s : σ) :
    (orThrow none missing >>= f) s = .error missing s := rfl

variable {τ : Type} {part : σ → Option τ} {put : τ → σ → σ}

theorem zoom_eq_ok_iff {x : EStateM ε τ α} : zoom part put missing x s = .ok a s' ↔
      ∃ t t', part s = some t ∧ x t = .ok a t' ∧ s' = put t' s := by
  unfold zoom
  constructor
  · intro ok
    split at ok
    · cases ok
    next t found =>
      split at ok
      next b t' result =>
        cases ok
        exact ⟨t, t', found, result, rfl⟩
      · cases ok
  · rintro ⟨t, t', found, result, rfl⟩
    simp [found, result]

@[simp] theorem ofExcept_ok_bind (a : α) (f : α → EStateM ε σ β) (s : σ) :
    ((MonadExcept.ofExcept (Except.ok a) : EStateM ε σ α) >>= f) s = f a s := rfl

@[simp] theorem ofExcept_error_bind (e : ε) (f : α → EStateM ε σ β) (s : σ) :
    ((MonadExcept.ofExcept (Except.error e) : EStateM ε σ α) >>= f) s = .error e s := rfl

@[simp] theorem ofExcept_ok_apply :
    (MonadExcept.ofExcept (Except.ok a) : EStateM ε σ α) s = .ok a s := rfl

@[simp] theorem ofExcept_error_apply :
    (MonadExcept.ofExcept (Except.error e) : EStateM ε σ α) s = .error e s := rfl

theorem ofExcept_eq_ok_iff {value : Except ε α} :
    (MonadExcept.ofExcept value : EStateM ε σ α) s = .ok a s' ↔ value = .ok a ∧ s = s' := by
  cases value <;> simp

@[simp] theorem map_set_apply (f : PUnit → β) :
    (f <$> (set s' : EStateM ε σ PUnit)) s = .ok (f ⟨⟩) s' := rfl

@[simp] theorem set_apply : (set s' : EStateM ε σ PUnit) s = .ok ⟨⟩ s' := rfl

theorem pure_eq_ok_iff {b : α} : (pure a : EStateM ε σ α) s = .ok b s' ↔ a = b ∧ s = s' := by
  simp

theorem map_congr_apply {y : EStateM ε σ α} (f : α → β) (same : x s = y s) :
    (f <$> x) s = (f <$> y) s := by
  simp [Functor.map, EStateM.map, same]

theorem map_of_error (f : α → β) (failed : x s = .error e s') : (f <$> x) s = .error e s' := by
  simp [Functor.map, EStateM.map, failed]

theorem ok_of_forM_eq_ok {f : α → EStateM ε σ PUnit} (ok : items.forM f s = .ok () s')
    {item : α} (mem : item ∈ items) : ∃ t t', f item t = .ok () t' := by
  induction items generalizing s with
  | nil => cases mem
  | cons first items ih =>
    obtain ⟨_, u, round, rest⟩ := bind_eq_ok_iff.mp ok
    rcases List.mem_cons.mp mem with rfl | mem
    · exact ⟨s, u, round⟩
    · exact ih rest mem

theorem forM_ok {f : α → EStateM ε σ PUnit}
    (rounds : ∀ item ∈ items, ∀ s, ∃ s', f item s = .ok () s') (s : σ) :
    ∃ s', items.forM f s = .ok () s' := by
  induction items generalizing s with
  | nil => exact ⟨s, rfl⟩
  | cons first items ih =>
    obtain ⟨t, round⟩ := rounds first List.mem_cons_self s
    obtain ⟨u, rest⟩ := ih (fun item mem => rounds item (List.mem_cons_of_mem _ mem)) t
    exact ⟨u, bind_eq_ok_iff.mpr ⟨(), t, round, rest⟩⟩

/-! ## What a computation keeps -/

/-- The state after a computation, whether it succeeded or failed. -/
def finalState : EStateM.Result ε σ α → σ
  | .ok _ s => s
  | .error _ s => s

@[simp] theorem finalState_ok (a : α) (s : σ) :
    finalState (.ok a s : EStateM.Result ε σ α) = s := rfl

@[simp] theorem finalState_error (e : ε) (s : σ) :
    finalState (.error e s : EStateM.Result ε σ α) = s := rfl

@[simp] theorem finalState_map (f : α → β) (x : EStateM ε σ α) (s : σ) :
    finalState ((f <$> x) s) = finalState (x s) := by
  cases result : x s <;> simp [Functor.map, EStateM.map, result]

@[simp] theorem finalState_ofExcept (value : Except ε α) (s : σ) :
    finalState ((MonadExcept.ofExcept value : EStateM ε σ α) s) = s := by
  cases value <;> rfl

@[simp] theorem finalState_orThrow (value : Option α) (missing : ε) (s : σ) :
    finalState ((orThrow value missing : EStateM ε σ α) s) = s := by
  cases value <;> rfl

theorem finalState_zoom (part : σ → Option τ) (put : τ → σ → σ) (missing : ε) (x : EStateM ε τ α)
    (s : σ) : finalState (zoom part put missing x s) =
      (part s).elim s fun t => put (finalState (x t)) s := by
  unfold zoom
  cases part s with
  | none => rfl
  | some t => cases result : x t <;> simp [result]

/-- Run a computation whose failure is looked at, as after `is_err`, or ignored, as by `ok`. -/
def attempt (x : EStateM ε σ α) : EStateM ε σ (Except ε α) := fun s =>
  match x s with
  | .ok a s' => .ok (.ok a) s'
  | .error e s' => .ok (.error e) s'

theorem attempt_bind_of_ok {f : Except ε α → EStateM ε σ β} (result : x s = .ok a s') :
    (attempt x >>= f) s = f (.ok a) s' := by
  simp [bind, EStateM.bind, attempt, result]

theorem attempt_bind_of_error {f : Except ε α → EStateM ε σ β} (result : x s = .error e s') :
    (attempt x >>= f) s = f (.error e) s' := by
  simp [bind, EStateM.bind, attempt, result]

/-- An outcome that is ignored leaves only the state. -/
theorem attempt_bind_const (x : EStateM ε σ α) (y : EStateM ε σ β) (s : σ) :
    (attempt x >>= fun _ => y) s = y (finalState (x s)) := by
  cases result : x s with
  | ok a s' => rw [attempt_bind_of_ok result, finalState_ok]
  | error e s' => rw [attempt_bind_of_error result, finalState_error]

theorem map_eq_ok_iff {f : α → β} : (f <$> x) s = .ok b s' ↔ ∃ a, x s = .ok a s' ∧ f a = b := by
  cases result : x s with
  | ok a t =>
    simp only [Functor.map, EStateM.map, result, EStateM.Result.ok.injEq]
    exact ⟨fun ⟨value, state⟩ => ⟨a, ⟨rfl, state⟩, value⟩,
      fun ⟨_, ⟨same, state⟩, value⟩ => ⟨same ▸ value, state⟩⟩
  | error e t => simp [Functor.map, EStateM.map, result]

/-! ## Two computations side by side -/

/-- Where the first computation succeeds, the second one does from every related state, with the
same result and in a related state again. -/
structure Follows {τ : Type} (R : σ → τ → Prop) (x : EStateM ε σ α) (y : EStateM ε τ α) :
    Prop where
  ok : ∀ {s t a s'}, R s t → x s = .ok a s' → ∃ t', y t = .ok a t' ∧ R s' t'

section Follows

variable {R : σ → τ → Prop} {y : EStateM ε τ α} {g : α → EStateM ε τ β}

theorem Follows.pure (a : α) :
    Follows R (Pure.pure a : EStateM ε σ α) (Pure.pure a : EStateM ε τ α) := by
  refine ⟨fun {s t _ _} related done => ?_⟩
  cases done
  exact ⟨t, rfl, related⟩

theorem Follows.throw (e : ε) : Follows R (MonadExcept.throw e : EStateM ε σ α) y :=
  ⟨fun _ done => nomatch done⟩

theorem Follows.bind (first : Follows R x y) (second : ∀ a, Follows R (f a) (g a)) :
    Follows R (x >>= f) (y >>= g) := by
  refine ⟨fun {s t b s''} related done => ?_⟩
  obtain ⟨a, s', done, rest⟩ := bind_eq_ok_iff.mp done
  obtain ⟨t', done', related'⟩ := first.ok related done
  obtain ⟨t'', rest', related''⟩ := (second a).ok related' rest
  exact ⟨t'', bind_eq_ok_iff.mpr ⟨a, t', done', rest'⟩, related''⟩

end Follows

/-- The computation, started in `s`, ends in a related state, whether it succeeds or fails. -/
def Keeps (R : σ → σ → Prop) (x : EStateM ε σ α) (s : σ) : Prop := R s (finalState (x s))

section Keeps

variable {R : σ → σ → Prop} {s : σ}

theorem Keeps.of_unchanged [Std.Refl R] (same : finalState (x s) = s) : Keeps R x s := by
  unfold Keeps
  rw [same]
  exact Std.Refl.refl s

theorem Keeps.get_bind {f : σ → EStateM ε σ β} (rest : Keeps R (f s) s) : Keeps R (get >>= f) s :=
  rest

/-- After a part that only looks at the state, the rest starts where the whole started. -/
theorem Keeps.bind_unchanged [Std.Refl R]
    (same : finalState (x s) = s) (rest : ∀ a, Keeps R (f a) s) : Keeps R (x >>= f) s := by
  cases result : x s with
  | ok a s' =>
    rw [result] at same
    subst same
    unfold Keeps
    rw [bind_of_ok result]
    exact rest a
  | error e s' =>
    rw [result, finalState_error] at same
    subst same
    exact .of_unchanged (by rw [bind_of_error result, finalState_error])

/-- A sequence keeps what its parts keep; the second part starts where the first ended. -/
theorem Keeps.bind [IsTrans σ R] (first : Keeps R x s)
    (second : ∀ a s', x s = .ok a s' → Keeps R (f a) s') : Keeps R (x >>= f) s := by
  unfold Keeps at first ⊢
  cases result : x s with
  | ok a s' =>
    rw [bind_of_ok result]
    rw [result] at first
    exact IsTrans.trans _ _ _ first (second a s' result)
  | error e s' =>
    rw [bind_of_error result]
    rwa [result] at first

/-- A part of the state may change in any way that the relation allows. -/
theorem keeps_zoom [Std.Refl R] {x : EStateM ε τ α}
    (related : ∀ t, part s = some t → R s (put (finalState (x t)) s)) :
    Keeps R (zoom part put missing x) s := by
  unfold Keeps
  rw [finalState_zoom]
  cases found : part s with
  | none => exact Std.Refl.refl s
  | some t => exact related t found

end Keeps

end SmartOs.CS
