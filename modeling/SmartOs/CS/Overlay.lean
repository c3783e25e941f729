/-
# Blocks that share cells

A block is written to several cells of a memory at once, and blocks at different addresses may
share cells. `cell a i` is the `i`th cell of a block at address `a`.

Two blocks can be held by one memory exactly if they agree on the cells they share, and blocks
that agree can be written in any order. If addresses are equal or have no cell in common, a
memory holds at each address the block that was written there last.
-/

import Mathlib.Data.List.FinRange

namespace SmartOs.CS

open List

section Cells

variable {A κ : Type} {n : ℕ} (cell : A → Fin n → A)

/-- The memory holds the block at the address. -/
def Held (memory : A → κ) (a : A) (block : Fin n → κ) : Prop := ∀ i, memory (cell a i) = block i

/-- The blocks are the same on the cells that they share. -/
def Agree (a : A) (block : Fin n → κ) (a' : A) (block' : Fin n → κ) : Prop :=
  ∀ i j, cell a i = cell a' j → block i = block' j

/-- Blocks at the two addresses share no cell. -/
def Apart (a a' : A) : Prop := ∀ i j, cell a i ≠ cell a' j

/-- The last of the writes to the address is this one. -/
def LastWrite {β : Type} (writes : List (A × β)) (a : A) (block : β) : Prop :=
  ∃ before after, writes = before ++ (a, block) :: after ∧ ∀ write ∈ after, write.1 ≠ a

variable {cell} {memory : A → κ} {a a' : A} {block block' : Fin n → κ}

theorem Apart.symm (apart : Apart cell a a') : Apart cell a' a :=
  fun i j shared => apart j i shared.symm

theorem Apart.agree (apart : Apart cell a a') : Agree cell a block a' block' :=
  fun i j shared => absurd shared (apart i j)

theorem LastWrite.mem {β : Type} {writes : List (A × β)} {block : β}
    (last : LastWrite writes a block) : (a, block) ∈ writes := by
  obtain ⟨before, after, rfl, -⟩ := last
  simp

theorem LastWrite.map {β γ : Type} (f : β → γ) {writes : List (A × β)} {block : β}
    (last : LastWrite writes a block) :
    LastWrite (writes.map fun write => (write.1, f write.2)) a (f block) := by
  obtain ⟨before, after, rfl, others⟩ := last
  exact ⟨_, _, map_append, forall_mem_map.mpr others⟩

/-- One memory holds only blocks that agree. -/
theorem Held.agree (held : Held cell memory a block) (held' : Held cell memory a' block') :
    Agree cell a block a' block' := by
  intro i j shared
  rw [← held i, shared, held' j]

end Cells

section Writing

variable {A κ : Type} {n : ℕ} [DecidableEq A] (cell : A → Fin n → A)

/-- The memory after a block is written at an address. -/
def overlay (memory : A → κ) (a : A) (block : Fin n → κ) : A → κ := fun x =>
  ((finRange n).find? fun i => cell a i = x).elim (memory x) block

/-- The memory after blocks are written one after another. -/
def overlayAll (memory : A → κ) (writes : List (A × (Fin n → κ))) : A → κ :=
  writes.foldl (fun memory write => overlay cell memory write.1 write.2) memory

variable {cell} {memory : A → κ} {a a' : A} {block block' : Fin n → κ}

theorem overlay_of_forall_ne {x : A} (outside : ∀ i, cell a i ≠ x) :
    overlay cell memory a block x = memory x := by
  have missing : ((finRange n).find? fun i => cell a i = x) = none := by
    simpa using outside
  rw [overlay, missing, Option.elim_none]

theorem held_overlay (injective : Function.Injective (cell a)) :
    Held cell (overlay cell memory a block) a block := by
  intro i
  have present : ((finRange n).find? fun j => cell a j = cell a i).isSome :=
    find?_isSome.mpr ⟨i, mem_finRange i, by simp⟩
  obtain ⟨j, found⟩ := Option.isSome_iff_exists.mp present
  have same : j = i := injective (by simpa using find?_some found)
  rw [overlay, found, Option.elim_some, same]

/-- A block is still held after another one is written that agrees with it. -/
theorem Held.overlay (held : Held cell memory a block) (injective : Function.Injective (cell a'))
    (agree : Agree cell a block a' block') : Held cell (overlay cell memory a' block') a block := by
  intro i
  by_cases shared : ∃ j, cell a' j = cell a i
  · obtain ⟨j, eq⟩ := shared
    rw [← eq, held_overlay injective j, agree i j eq.symm]
  · rw [overlay_of_forall_ne (not_exists.mp shared), held i]

variable {writes : List (A × (Fin n → κ))}

theorem overlayAll_append (first rest : List (A × (Fin n → κ))) :
    overlayAll cell memory (first ++ rest) = overlayAll cell (overlayAll cell memory first) rest :=
  foldl_append

section Sequences

variable (injective : ∀ a, Function.Injective (cell a))
include injective

theorem Held.overlayAll (held : Held cell memory a block)
    (agree : ∀ write ∈ writes, Agree cell a block write.1 write.2) :
    Held cell (overlayAll cell memory writes) a block := by
  induction writes generalizing memory with
  | nil => exact held
  | cons write writes ih =>
    obtain ⟨first, others⟩ := forall_mem_cons.mp agree
    exact ih (held.overlay (injective _) first) others

/-- Writes that agree with each other are all held in the end. -/
theorem held_overlayAll_of_agree
    (agree : writes.Pairwise fun w w' => Agree cell w.1 w.2 w'.1 w'.2) :
    ∀ write ∈ writes, Held cell (overlayAll cell memory writes) write.1 write.2 := by
  induction writes generalizing memory with
  | nil => simp
  | cons write writes ih =>
    obtain ⟨first, others⟩ := pairwise_cons.mp agree
    have written : Held cell (overlay cell memory write.1 write.2) write.1 write.2 :=
      held_overlay (injective _)
    have kept := written.overlayAll injective first
    exact forall_mem_cons.mpr ⟨kept, ih others⟩

theorem held_overlayAll_append_cons {before after : List (A × (Fin n → κ))}
    (apart : ∀ write ∈ after, Apart cell a write.1) :
    Held cell (overlayAll cell memory (before ++ (a, block) :: after)) a block := by
  rw [overlayAll_append]
  have written : Held cell (overlay cell (overlayAll cell memory before) a block) a block :=
    held_overlay (injective a)
  have kept := written.overlayAll injective fun write mem => (apart write mem).agree
  exact kept

/-- If a memory holds all last writes, and no two addresses overlap partly, it holds all last
writes also after more of them. -/
theorem held_overlayAll_of_last {done : List (A × (Fin n → κ))}
    (separate : ∀ w ∈ done ++ writes, ∀ w' ∈ done ++ writes, w.1 = w'.1 ∨ Apart cell w.1 w'.1)
    (held : ∀ a block, LastWrite done a block → Held cell memory a block)
    (last : LastWrite (done ++ writes) a block) :
    Held cell (overlayAll cell memory writes) a block := by
  have mem : (a, block) ∈ done ++ writes := last.mem
  obtain ⟨before, after, split, others⟩ := last
  have later : ∀ write ∈ after, Apart cell a write.1 := by
    intro write known
    have present : write ∈ done ++ writes := by rw [split]; simp [known]
    exact (separate _ mem _ present).resolve_left (Ne.symm (others write known))
  -- the last write is among the new ones, or it is an old one and no new one touches it
  rcases append_eq_append_iff.mp split with ⟨skipped, -, new⟩ | ⟨rest, old, new⟩
  · rw [new]
    exact held_overlayAll_append_cons injective later
  cases rest with
  | nil =>
    rw [show writes = [] ++ (a, block) :: after from new.symm]
    exact held_overlayAll_append_cons injective later
  | cons write rest =>
    obtain ⟨rfl, rfl⟩ := cons_eq_cons.mp new
    have lastOld := (forall_mem_append.mp others).1
    refine (held a block ⟨before, rest, old, lastOld⟩).overlayAll injective fun write known => ?_
    exact (later write (mem_append_right rest known)).agree

end Sequences

end Writing

end SmartOs.CS
