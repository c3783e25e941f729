/-
# Five limbs modulo a number just below a power

Numbers as five limbs in base `B`, modulo `p = B ^ 5 - c`. What comes out of the top limb is
folded back into the lowest one, `c` times. A product is the schoolbook product with its upper
half folded back; the carries then go up once and around the top, and one step further.

Limbs may be larger than the base. How large they get is part of the theorems, since the code
that works on such limbs relies on it.
-/

import Mathlib.Data.Nat.ModEq
import Mathlib.Tactic.Linarith
import Mathlib.Tactic.LinearCombination
import Mathlib.Tactic.Ring

namespace SmartOs.Math

open Nat

@[ext]
structure Five (α : Type*) where
  l0 : α
  l1 : α
  l2 : α
  l3 : α
  l4 : α
  deriving DecidableEq

namespace Five

variable {B c p : ℕ}

def value (B : ℕ) (x : Five ℕ) : ℕ := x.l0 + x.l1 * B + x.l2 * B ^ 2 + x.l3 * B ^ 3 + x.l4 * B ^ 4

def add (x y : Five ℕ) : Five ℕ :=
  ⟨x.l0 + y.l0, x.l1 + y.l1, x.l2 + y.l2, x.l3 + y.l3, x.l4 + y.l4⟩

theorem value_add (x y : Five ℕ) : value B (x.add y) = value B x + value B y := by
  simp only [value, add]
  ring

/-- The product, with what is beyond five limbs folded back. -/
def mulFold (c : ℕ) (x y : Five ℕ) : Five ℕ where
  l0 := x.l0 * y.l0 + c * (x.l1 * y.l4 + x.l2 * y.l3 + x.l3 * y.l2 + x.l4 * y.l1)
  l1 := x.l0 * y.l1 + x.l1 * y.l0 + c * (x.l2 * y.l4 + x.l3 * y.l3 + x.l4 * y.l2)
  l2 := x.l0 * y.l2 + x.l1 * y.l1 + x.l2 * y.l0 + c * (x.l3 * y.l4 + x.l4 * y.l3)
  l3 := x.l0 * y.l3 + x.l1 * y.l2 + x.l2 * y.l1 + x.l3 * y.l0 + c * (x.l4 * y.l4)
  l4 := x.l0 * y.l4 + x.l1 * y.l3 + x.l2 * y.l2 + x.l3 * y.l1 + x.l4 * y.l0

theorem value_mulFold (fold : B ^ 5 = p + c) (x y : Five ℕ) :
    value B (mulFold c x y) ≡ value B x * value B y [MOD p] := by
  -- the upper half of the product
  have split : value B x * value B y = value B (mulFold c x y) +
      p * (x.l1 * y.l4 + x.l2 * y.l3 + x.l3 * y.l2 + x.l4 * y.l1 +
        (x.l2 * y.l4 + x.l3 * y.l3 + x.l4 * y.l2) * B +
        (x.l3 * y.l4 + x.l4 * y.l3) * B ^ 2 + x.l4 * y.l4 * B ^ 3) := by
    obtain ⟨x0, x1, x2, x3, x4⟩ := x
    obtain ⟨y0, y1, y2, y3, y4⟩ := y
    simp only [value, mulFold]
    zify at fold ⊢
    linear_combination (x1 * y4 + x2 * y3 + x3 * y2 + x4 * y1 +
      (x2 * y4 + x3 * y3 + x4 * y2) * B + (x3 * y4 + x4 * y3) * B ^ 2 + x4 * y4 * B ^ 3 : ℤ) * fold
  rw [split, Nat.ModEq, add_mul_mod_self_left]

/-- The carries, once up and around, and one step further. -/
def carry (B c : ℕ) (x : Five ℕ) : Five ℕ :=
  let t1 := x.l1 + x.l0 / B
  let t2 := x.l2 + t1 / B
  let t3 := x.l3 + t2 / B
  let t4 := x.l4 + t3 / B
  let t0 := x.l0 % B + c * (t4 / B)
  ⟨t0 % B, t1 % B + t0 / B, t2 % B, t3 % B, t4 % B⟩

/-- The five lowest digits of a number. -/
def digits (B n : ℕ) : Five ℕ :=
  ⟨n % B, n / B % B, n / B ^ 2 % B, n / B ^ 3 % B, n / B ^ 4 % B⟩

theorem value_digits (B n : ℕ) : value B (digits B n) = n % B ^ 5 := by
  have split (k : ℕ) : n % B ^ (k + 1) = n % B ^ k + n / B ^ k % B * B ^ k := by
    rw [mod_pow_succ, mul_comm]
  rw [split 4, split 3, split 2, split 1, pow_one]
  rfl

theorem digits_mod (n : ℕ) : digits B (n % B ^ 5) = digits B n := by
  have digit {k : ℕ} (inside : k < 5) : n % B ^ 5 / B ^ k % B = n / B ^ k % B := by
    have cut : B ^ 5 = B ^ k * B ^ (5 - k) := by rw [← pow_add, add_sub_of_le inside.le]
    rw [cut, mod_mul_right_div_self]
    exact mod_mod_of_dvd _ (dvd_pow_self B (by omega))
  have first := digit (k := 0) (by decide)
  have second := digit (k := 1) (by decide)
  rw [pow_zero, Nat.div_one, Nat.div_one] at first
  rw [pow_one] at second
  rw [digits, first, second, digit (by decide), digit (by decide), digit (by decide), digits]

section

variable {x : Five ℕ} (h0 : x.l0 < B) (h1 : x.l1 < B) (h2 : x.l2 < B) (h3 : x.l3 < B)
  (h4 : x.l4 < B)

include h0 h1 h2 h3 h4

theorem digits_value : digits B (value B x) = x := by
  obtain ⟨x0, x1, x2, x3, x4⟩ := x
  have pos : 0 < B := zero_lt_of_lt h0
  -- one digit at a time, from below
  have peel {d v : ℕ} (digit : d < B) : (d + B * v) % B = d ∧ (d + B * v) / B = v :=
    ⟨by rw [add_mul_mod_self_left, mod_eq_of_lt digit],
      by rw [add_mul_div_left _ _ pos, div_eq_of_lt digit, zero_add]⟩
  have nested : value B ⟨x0, x1, x2, x3, x4⟩ = x0 + B * (x1 + B * (x2 + B * (x3 + B * x4))) := by
    simp only [value]
    ring
  have power (n k : ℕ) : n / B ^ (k + 1) = n / B / B ^ k := by
    rw [pow_succ', Nat.div_div_eq_div_mul]
  rw [nested, digits, power _ 1, power _ 2, power _ 3, power _ 1, power _ 2, power _ 1, pow_one,
    (peel h0).1, (peel h0).2, (peel h1).1, (peel h1).2, (peel h2).1, (peel h2).2, (peel h3).1,
    (peel h3).2, mod_eq_of_lt h4]

theorem value_lt : value B x < B ^ 5 := by
  -- from the top: each digit leaves room for what is below it
  have step {d low k : ℕ} (digit : d < B) (below : low < B ^ k) : low + d * B ^ k < B ^ (k + 1) :=
    calc low + d * B ^ k < (d + 1) * B ^ k := by rw [succ_mul]; omega
      _ ≤ B ^ (k + 1) := by rw [pow_succ']; exact mul_le_mul_right _ digit
  have s0 : x.l0 < B ^ 1 := by rwa [pow_one]
  have s1 : x.l0 + x.l1 * B ^ 1 < B ^ 2 := step h1 s0
  rw [pow_one] at s1
  exact step h4 (step h3 (step h2 s1))

end

/-- A pass of carries from the lowest limb to the top yields the digits of the value, and what comes
out at the top is what does not fit into them. -/
theorem ripple (pos : 0 < B) (x : Five ℕ) {t1 t2 t3 t4 : ℕ} (h1 : t1 = x.l1 + x.l0 / B)
    (h2 : t2 = x.l2 + t1 / B) (h3 : t3 = x.l3 + t2 / B) (h4 : t4 = x.l4 + t3 / B) :
    digits B (value B x) = ⟨x.l0 % B, t1 % B, t2 % B, t3 % B, t4 % B⟩ ∧
      value B x / B ^ 5 = t4 / B := by
  obtain ⟨x0, x1, x2, x3, x4⟩ := x
  let low : Five ℕ := ⟨x0 % B, t1 % B, t2 % B, t3 % B, t4 % B⟩
  have total : value B ⟨x0, x1, x2, x3, x4⟩ = value B low + B ^ 5 * (t4 / B) := by
    have e0 := div_add_mod x0 B
    have e1 := div_add_mod t1 B
    have e2 := div_add_mod t2 B
    have e3 := div_add_mod t3 B
    have e4 := div_add_mod t4 B
    simp only [value, low]
    zify at *
    linear_combination (-1 : ℤ) * e0 - B * e1 - B ^ 2 * e2 - B ^ 3 * e3 - B ^ 4 * e4 - B * h1 -
      B ^ 2 * h2 - B ^ 3 * h3 - B ^ 4 * h4
  have small : value B low < B ^ 5 := value_lt (mod_lt _ pos) (mod_lt _ pos)
    (mod_lt _ pos) (mod_lt _ pos) (mod_lt _ pos)
  have rest : value B ⟨x0, x1, x2, x3, x4⟩ % B ^ 5 = value B low := by
    rw [total, add_mul_mod_self_left, mod_eq_of_lt small]
  constructor
  · rw [← digits_mod, rest]
    exact digits_value (mod_lt _ pos) (mod_lt _ pos) (mod_lt _ pos)
      (mod_lt _ pos) (mod_lt _ pos)
  · rw [total, add_mul_div_left _ _ (Nat.pow_pos pos), div_eq_of_lt small, zero_add]

/-- What the carries make of the value: the part beyond five limbs is folded back. -/
theorem value_carry (pos : 0 < B) (c : ℕ) (x : Five ℕ) :
    value B (carry B c x) = value B x % B ^ 5 + c * (value B x / B ^ 5) := by
  obtain ⟨low, top⟩ := ripple pos x rfl rfl rfl rfl
  rw [← value_digits, low, top]
  have folded := div_add_mod
    (x.l0 % B + c * ((x.l4 + (x.l3 + (x.l2 + (x.l1 + x.l0 / B) / B) / B) / B) / B)) B
  simp only [carry, value]
  linear_combination folded

/-- Folding back what is beyond five limbs changes the value by a multiple of the modulus. -/
theorem fold_modEq (fold : B ^ 5 = p + c) (v : ℕ) : v % B ^ 5 + c * (v / B ^ 5) ≡ v [MOD p] := by
  have split := div_add_mod v (B ^ 5)
  conv_rhs => rw [← split]
  rw [fold, Nat.ModEq, add_mul, add_assoc, mul_add_mod, add_comm]

theorem value_carry_modEq (pos : 0 < B) (fold : B ^ 5 = p + c) (x : Five ℕ) :
    value B (carry B c x) ≡ value B x [MOD p] := by
  rw [value_carry pos]
  exact fold_modEq fold _

theorem carry_mulFold_zero (B c : ℕ) (x : Five ℕ) :
    value B (carry B c (mulFold c x (digits B 0))) = 0 := by
  simp [value, carry, mulFold, digits]

end Five

end SmartOs.Math
