/-
# Ones-complement sums of 16-bit words

A list of bytes is read as words of two bytes, the first the high one; an odd last byte counts as
followed by a zero. Folding adds the carries of a sum back in at the low end until the sum fits a
word. That keeps the sum modulo 65535 and never turns a positive sum into zero, so the folded sum
is all ones exactly if the sum is a positive multiple of 65535.
-/

import Mathlib.Algebra.BigOperators.Intervals
import Mathlib.Algebra.Order.BigOperators.Group.Finset
import Mathlib.Data.Nat.ModEq
import Mathlib.Tactic.Ring

namespace SmartOs.Math

open List Finset

variable {i sum : ℕ}

/-! ## Words -/

/-- The `i`-th word; beyond the end there are zeros. -/
def wordAt (data : List UInt8) (i : ℕ) : ℕ :=
  256 * (data.getD (2 * i) 0).toNat + (data.getD (2 * i + 1) 0).toNat

def wordSum (data : List UInt8) : ℕ :=
  ∑ i ∈ range ((data.length + 1) / 2), wordAt data i

theorem wordAt_le (data : List UInt8) (i : ℕ) : wordAt data i ≤ 65535 := by
  have high := (data.getD (2 * i) 0).toNat_lt
  have low := (data.getD (2 * i + 1) 0).toNat_lt
  unfold wordAt
  omega

variable {data : List UInt8}

theorem wordAt_of_le (beyond : data.length ≤ 2 * i) : wordAt data i = 0 := by
  simp [wordAt, getElem?_eq_none beyond, getElem?_eq_none (Nat.le_succ_of_le beyond)]

theorem wordSum_le (data : List UInt8) : wordSum data ≤ (data.length + 1) / 2 * 65535 := by
  have bound := sum_le_card_nsmul (range ((data.length + 1) / 2)) (wordAt data)
    65535 (fun i _ => wordAt_le data i)
  rwa [card_range] at bound

@[simp] theorem wordSum_nil : wordSum [] = 0 := rfl

@[simp] theorem wordSum_singleton (byte : UInt8) : wordSum [byte] = 256 * byte.toNat := by
  simp [wordSum, wordAt]

@[simp] theorem wordSum_cons_cons (high low : UInt8) (data : List UInt8) :
    wordSum (high :: low :: data) = 256 * high.toNat + low.toNat + wordSum data := by
  have length : ((high :: low :: data).length + 1) / 2 = (data.length + 1) / 2 + 1 := by
    simp only [length_cons]
    omega
  rw [wordSum, length, Finset.sum_range_succ', add_comm]
  rfl

theorem wordSum_add_wordAt {changed : List UInt8} (length : changed.length = data.length)
    (others : ∀ j, j ≠ i → wordAt changed j = wordAt data j) :
    wordSum changed + wordAt data i = wordSum data + wordAt changed i := by
  by_cases inside : i < (data.length + 1) / 2
  · have mem : i ∈ Finset.range ((data.length + 1) / 2) := Finset.mem_range.mpr inside
    have rest : ∑ j ∈ (Finset.range ((data.length + 1) / 2)).erase i, wordAt changed j =
        ∑ j ∈ (Finset.range ((data.length + 1) / 2)).erase i, wordAt data j :=
      sum_congr rfl fun j other => others j (ne_of_mem_erase other)
    rw [wordSum, wordSum, length, ← add_sum_erase _ _ mem, ← add_sum_erase _ _ mem, rest]
    ring
  · -- both words lie beyond the end
    have same : wordSum changed = wordSum data := by
      rw [wordSum, length]
      refine sum_congr rfl fun j before => others j ?_
      have := Finset.mem_range.mp before
      omega
    rw [same, wordAt_of_le (by omega), wordAt_of_le (by omega)]

theorem wordSum_set (inside : 2 * i + 1 < data.length) (zero : wordAt data i = 0)
    (high low : UInt8) : wordSum ((data.set (2 * i) high).set (2 * i + 1) low) =
      wordSum data + (256 * high.toNat + low.toNat) := by
  have others : ∀ j, j ≠ i →
      wordAt ((data.set (2 * i) high).set (2 * i + 1) low) j = wordAt data j := by
    intro j other
    simp only [wordAt, getD_eq_getElem?_getD]
    rw [getElem?_set_ne (by omega), getElem?_set_ne (by omega),
      getElem?_set_ne (by omega), getElem?_set_ne (by omega)]
  have written : wordAt ((data.set (2 * i) high).set (2 * i + 1) low) i =
      256 * high.toNat + low.toNat := by
    simp only [wordAt, getD_eq_getElem?_getD]
    rw [getElem?_set_ne (by omega), getElem?_set_self (by omega),
      getElem?_set_self (by simpa using inside)]
    rfl
  have sums := wordSum_add_wordAt (by simp) others
  rwa [zero, written] at sums

/-! ## Folding -/

/-- Add the carries back in until the sum fits a word. -/
def foldCarry (sum : ℕ) : ℕ :=
  if 65535 < sum then foldCarry (sum % 65536 + sum / 65536) else sum
termination_by sum

theorem foldCarry_le (sum : ℕ) : foldCarry sum ≤ 65535 := by
  fun_induction foldCarry sum with
  | case1 sum large ih => exact ih
  | case2 sum small => exact not_lt.mp small

theorem foldCarry_modEq (sum : ℕ) : foldCarry sum ≡ sum [MOD 65535] := by
  fun_induction foldCarry sum with
  | case1 sum large ih =>
    -- one round replaces `65536 * carry` by `carry`
    have round : sum % 65536 + sum / 65536 ≡ sum [MOD 65535] := by
      unfold Nat.ModEq
      omega
    exact ih.trans round
  | case2 sum small => rfl

theorem foldCarry_pos (pos : 0 < sum) : 0 < foldCarry sum := by
  fun_induction foldCarry sum with
  | case1 sum large ih => exact ih (by omega)
  | case2 sum small => exact pos

theorem foldCarry_eq_ones_iff (positive : 0 < sum) :
    foldCarry sum = 65535 ↔ sum ≡ 0 [MOD 65535] := by
  have bound := foldCarry_le sum
  have congruent := foldCarry_modEq sum
  have pos := foldCarry_pos positive
  unfold Nat.ModEq at *
  constructor
  · intro ones
    rw [← congruent, ones]
  · intro multiple
    omega

end SmartOs.Math
