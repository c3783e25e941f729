/-
# Blocks of a list

A list is cut into blocks of `n` items and a rest that is too short for one. A consumer that takes
items one at a time, keeps them in a buffer and handles the buffer each time it is full, has
handled the blocks of what it was given and keeps the rest, however the items came.
-/

import Mathlib.Data.List.Basic
import Mathlib.Data.List.Induction
import Mathlib.Order.Nat

namespace SmartOs.CS

open List

variable {α σ : Type*} {n : ℕ}

/-- The full blocks of `n` items. -/
def blocks (n : ℕ) (items : List α) : List (List α) :=
  (range (items.length / n)).map fun i => (items.drop (i * n)).take n

/-- What is left after the full blocks. -/
def remainder (n : ℕ) (items : List α) : List α := items.drop (items.length / n * n)

theorem length_remainder (n : ℕ) (items : List α) :
    (remainder n items).length = items.length % n := by
  rw [remainder, length_drop, Nat.mod_eq_sub_div_mul]

variable {items : List α}

theorem blocks_of_lt (short : items.length < n) : blocks n items = [] := by
  rw [blocks, Nat.div_eq_of_lt short]
  rfl

theorem remainder_of_lt (short : items.length < n) : remainder n items = items := by
  rw [remainder, Nat.div_eq_of_lt short, Nat.zero_mul, drop_zero]

section Front

variable {front items : List α} (pos : 0 < n) (length : front.length = n)

include length

theorem drop_succ_mul (i : ℕ) : (front ++ items).drop ((i + 1) * n) = items.drop (i * n) := by
  rw [Nat.succ_mul, Nat.add_comm, ← drop_drop, drop_left' length]

include pos

theorem div_length_append : (front ++ items).length / n = items.length / n + 1 := by
  rw [length_append, length, Nat.add_comm n, Nat.add_div_right _ pos]

theorem blocks_append : blocks n (front ++ items) = front :: blocks n items := by
  rw [blocks, div_length_append pos length, range_succ_eq_map, map_cons, map_map,
    Nat.zero_mul, drop_zero, take_left' length]
  refine congrArg (front :: ·) (map_congr_left fun i _ => ?_)
  rw [Function.comp_apply, drop_succ_mul length]

theorem remainder_append : remainder n (front ++ items) = remainder n items := by
  rw [remainder, div_length_append pos length, drop_succ_mul length, remainder]

end Front

/-- Induction over the blocks from the front. -/
theorem block_induction (pos : 0 < n) {motive : List α → Prop}
    (short : ∀ items, items.length < n → motive items)
    (append : ∀ front items, front.length = n → motive items → motive (front ++ items))
    (items : List α) : motive items := by
  induction size : items.length using Nat.strongRecOn generalizing items with
  | ind size ih =>
    rcases lt_or_ge items.length n with less | enough
    · exact short items less
    rw [← take_append_drop n items]
    refine append _ _ (length_take_of_le enough) (ih _ ?_ _ rfl)
    rw [length_drop]
    omega

variable {block : List α}

theorem length_of_mem_blocks (pos : 0 < n) (mem : block ∈ blocks n items) : block.length = n := by
  induction items using block_induction pos with
  | short items less => rw [blocks_of_lt less] at mem; cases mem
  | append front items length ih =>
    rw [blocks_append pos length] at mem
    rcases mem_cons.mp mem with rfl | mem
    · exact length
    · exact ih mem

/-- What follows is put behind the rest; the blocks before it stay. -/
theorem blocks_append_eq (pos : 0 < n) (items more : List α) :
    blocks n (items ++ more) = blocks n items ++ blocks n (remainder n items ++ more) := by
  induction items using block_induction pos with
  | short items less => rw [blocks_of_lt less, remainder_of_lt less, nil_append]
  | append front items length ih =>
    rw [append_assoc, blocks_append pos length, blocks_append pos length,
      remainder_append pos length, ih, cons_append]

theorem remainder_append_eq (pos : 0 < n) (more : List α) :
    remainder n (items ++ more) = remainder n (remainder n items ++ more) := by
  induction items using block_induction pos with
  | short items less => rw [remainder_of_lt less]
  | append front items length ih =>
    rw [append_assoc, remainder_append pos length, remainder_append pos length, ih]

theorem blocks_of_length_eq (pos : 0 < n) (length : block.length = n) :
    blocks n block = [block] := by
  have none : blocks n ([] : List α) = [] := blocks_of_lt pos
  rw [← append_nil block, blocks_append pos length, none, append_nil]

theorem remainder_of_length_eq (length : block.length = n) : remainder n block = [] := by
  rw [← length_eq_zero_iff, length_remainder, length, Nat.mod_self]

/-! ## With the rest -/

/-- The full blocks, and the rest as a shorter one unless it is empty. -/
def chunks (n : ℕ) (items : List α) : List (List α) :=
  blocks n items ++ if remainder n items = [] then [] else [remainder n items]

theorem length_of_mem_chunks (pos : 0 < n) {chunk : List α}
    (mem : chunk ∈ chunks n items) : chunk ≠ [] ∧ chunk.length ≤ n := by
  rcases mem_append.mp mem with full | rest
  · have length := length_of_mem_blocks pos full
    exact ⟨ne_nil_of_length_pos (by omega), length.le⟩
  split_ifs at rest with empty
  · cases rest
  rw [mem_singleton] at rest
  subst rest
  exact ⟨empty, by rw [length_remainder]; exact (Nat.mod_lt _ pos).le⟩

theorem chunks_nil (pos : 0 < n) : chunks n ([] : List α) = [] := by
  rw [chunks, blocks_of_lt pos, remainder_of_lt pos, if_pos rfl, append_nil]

theorem chunks_of_le (pos : 0 < n) (some : items ≠ [])
    (short : items.length ≤ n) : chunks n items = [items] := by
  rcases short.lt_or_eq with less | equal
  · rw [chunks, blocks_of_lt less, remainder_of_lt less, if_neg some, nil_append]
  · rw [chunks, blocks_of_length_eq pos equal, remainder_of_length_eq equal, if_pos rfl, append_nil]

theorem flatten_chunks (pos : 0 < n) (items : List α) : (chunks n items).flatten = items := by
  induction items using block_induction pos with
  | short items less =>
    rw [chunks, blocks_of_lt less, remainder_of_lt less]
    split_ifs with empty <;> simp [empty]
  | append front items length ih =>
    rw [chunks, blocks_append pos length, remainder_append pos length, cons_append, flatten_cons]
    exact congrArg (front ++ ·) ih

/-! ## A buffered consumer -/

/-- Take one item: a full block is handled, otherwise it is held back. -/
def absorb (n : ℕ) (handle : σ → List α → σ) (s : σ × List α) (item : α) : σ × List α :=
  if s.2.length + 1 = n then (handle s.1 (s.2 ++ [item]), []) else (s.1, s.2 ++ [item])

/-- The consumer has handled the blocks and holds the rest. -/
theorem foldl_absorb (pos : 0 < n) (handle : σ → List α → σ) (start : σ) (items : List α) :
    items.foldl (absorb n handle) (start, []) =
      ((blocks n items).foldl handle start, remainder n items) := by
  induction items using reverseRecOn with
  | nil =>
    rw [blocks_of_lt pos, remainder_of_lt pos]
    rfl
  | append_singleton items item ih =>
    have short : (remainder n items).length < n := by
      rw [length_remainder]
      exact Nat.mod_lt _ pos
    have held : (remainder n items ++ [item]).length = (remainder n items).length + 1 :=
      length_append
    rw [foldl_append, ih, foldl_cons, absorb, blocks_append_eq pos,
      remainder_append_eq pos, foldl_append]
    dsimp only
    split_ifs with full
    · rw [blocks_of_length_eq pos (held.trans full), remainder_of_length_eq (held.trans full)]
      rfl
    · have less : (remainder n items ++ [item]).length < n := by omega
      rw [blocks_of_lt less, remainder_of_lt less]
      rfl

end SmartOs.CS
