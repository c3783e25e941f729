/-
# Chains of successors

A partial function `next` gives each element its successor, or none at the end. A list is linked
by `next` if each of its elements is followed by its successor and the last one has none.

The chain that starts at an element is unique, has no element twice, and consists of what can
be reached from there. So it is the same for every `next` that agrees on what can be reached.
-/

import Mathlib.Data.List.Nodup
import Mathlib.Logic.Relation

namespace SmartOs.CS

open List

variable {α : Type}

/-- The elements are each other's successors, up to an element that has none. -/
def Linked (next : α → Option α) : List α → Prop
  | [] => True
  | [last] => next last = none
  | c :: d :: rest => next c = some d ∧ Linked next (d :: rest)

/-- What can be reached along successors. -/
def Reaches (next : α → Option α) : α → α → Prop :=
  Relation.ReflTransGen fun c d => next c = some d

variable {next next' : α → Option α} {c d : α} {rest rest' : List α}

theorem linked_cons_iff : Linked next (c :: rest) ↔ next c = rest.head? ∧ Linked next rest := by
  cases rest with
  | nil => simp [Linked]
  | cons d rest => rfl

theorem Linked.of_suffix {front : List α} (linked : Linked next (front ++ rest)) :
    Linked next rest := by
  induction front with
  | nil => exact linked
  | cons c front ih => exact ih (linked_cons_iff.mp linked).2

theorem Linked.next_eq (linked : Linked next rest) {i : ℕ} (at_i : rest[i]? = some c) :
    next c = rest[i + 1]? := by
  induction rest generalizing i with
  | nil => cases at_i
  | cons first rest ih =>
    obtain ⟨follows, linked⟩ := linked_cons_iff.mp linked
    cases i with
    | zero =>
      cases at_i
      rw [follows, head?_eq_getElem?, getElem?_cons_succ]
    | succ i => exact ih linked at_i

theorem linked_of_next (follows : ∀ (i : ℕ) (c : α), rest[i]? = some c → next c = rest[i + 1]?) :
    Linked next rest := by
  induction rest with
  | nil => trivial
  | cons first rest ih =>
    refine linked_cons_iff.mpr ⟨?_, ih fun i c at_i => ?_⟩
    · rw [follows 0 first getElem?_cons_zero, getElem?_cons_succ, head?_eq_getElem?]
    · rw [follows (i + 1) c (getElem?_cons_succ.trans at_i), getElem?_cons_succ]

theorem Linked.unique (linked : Linked next (c :: rest)) (linked' : Linked next (c :: rest')) :
    rest = rest' := by
  induction rest generalizing c rest' with
  | nil =>
    have ends := (linked_cons_iff.mp linked').1.symm.trans (linked_cons_iff.mp linked).1
    exact (head?_eq_none_iff.mp ends).symm
  | cons d rest ih =>
    obtain ⟨follows, linked⟩ := linked_cons_iff.mp linked
    obtain ⟨follows', linked'⟩ := linked_cons_iff.mp linked'
    obtain ⟨rest', rfl⟩ := head?_eq_some_iff.mp (follows'.symm.trans follows)
    rw [ih linked linked']

theorem Linked.nodup (linked : Linked next rest) : rest.Nodup := by
  induction rest with
  | nil => exact nodup_nil
  | cons c rest ih =>
    have tail := (linked_cons_iff.mp linked).2
    refine nodup_cons.mpr ⟨fun again => ?_, ih tail⟩
    -- The chain from the second occurrence would be the whole chain from the first one.
    obtain ⟨front, back, split⟩ := append_of_mem again
    have shorter : Linked next (c :: back) := Linked.of_suffix (split ▸ tail)
    have lengths := congrArg length (linked.unique shorter)
    rw [split, length_append, length_cons] at lengths
    omega

theorem Linked.reaches (linked : Linked next (c :: rest)) (mem : d ∈ c :: rest) :
    Reaches next c d := by
  induction rest generalizing c with
  | nil =>
    rw [mem_singleton.mp mem]
    exact .refl
  | cons e rest ih =>
    obtain ⟨follows, linked⟩ := linked_cons_iff.mp linked
    rcases mem_cons.mp mem with rfl | mem
    · exact .refl
    · exact .head follows (ih linked mem)

theorem Linked.mem_of_reaches (linked : Linked next (c :: rest)) (reached : Reaches next c d) :
    d ∈ c :: rest := by
  induction reached with
  | refl => exact mem_cons_self
  | tail _ follows ih =>
    obtain ⟨i, inside, rfl⟩ := getElem_of_mem ih
    rw [linked.next_eq (getElem?_eq_getElem inside)] at follows
    exact mem_of_getElem? follows

theorem Linked.congr (same : ∀ d ∈ rest, next' d = next d) (linked : Linked next rest) :
    Linked next' rest := by
  induction rest with
  | nil => trivial
  | cons c rest ih =>
    obtain ⟨agree, others⟩ := forall_mem_cons.mp same
    obtain ⟨follows, linked⟩ := linked_cons_iff.mp linked
    exact linked_cons_iff.mpr ⟨agree.trans follows, ih others linked⟩

end SmartOs.CS
