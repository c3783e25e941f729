/-
# Numbers as bits

`lsbBits n v` lists the `n` low bits of `v` from the least significant on, `msbBits n v` from
the most significant on. Bytes are read least significant bit first.
-/

import Mathlib.Data.Nat.Bitwise

namespace SmartOs.Math

open List

/-- The `n` low bits of a number, least significant first. -/
def lsbBits (n v : ℕ) : List Bool := (range n).map v.testBit

/-- The `n` low bits of a number, most significant first. -/
def msbBits : ℕ → ℕ → List Bool
  | 0, _ => []
  | n + 1, v => v.testBit n :: msbBits n v

@[simp]
theorem length_lsbBits (n v : ℕ) : (lsbBits n v).length = n := by
  simp [lsbBits]

theorem lsbBits_add (m n v : ℕ) : lsbBits (m + n) v = lsbBits m v ++ lsbBits n (v / 2 ^ m) := by
  simp only [lsbBits, range_add, map_append, map_map]
  congr 1
  apply map_congr_left
  intro i _
  rw [Function.comp_apply, Nat.testBit_div_two_pow, add_comm]

theorem lsbBits_congr {n u v : ℕ} (same : u % 2 ^ n = v % 2 ^ n) : lsbBits n u = lsbBits n v := by
  apply map_congr_left
  intro i mem
  have small : i < n := mem_range.mp mem
  have bits := congrArg (·.testBit i) same
  simpa [small] using bits

theorem lsbBits_inj {n u v : ℕ} (same : lsbBits n u = lsbBits n v) : u % 2 ^ n = v % 2 ^ n := by
  apply Nat.eq_of_testBit_eq
  intro i
  rw [Nat.testBit_mod_two_pow, Nat.testBit_mod_two_pow]
  by_cases small : i < n
  · have bit := congrArg (·[i]?) same
    simp only [lsbBits, getElem?_map, getElem?_range small, Option.map_some,
      Option.some.injEq] at bit
    rw [bit]
  · simp [small]

/-- The bits of two numbers placed one above the other. -/
theorem lsbBits_add_mul {m n low : ℕ} (high : ℕ) (small : low < 2 ^ m) :
    lsbBits (m + n) (low + 2 ^ m * high) = lsbBits m low ++ lsbBits n high := by
  rw [lsbBits_add]
  congr 1
  · apply lsbBits_congr
    simp
  · rw [Nat.add_mul_div_left _ _ (Nat.two_pow_pos m), Nat.div_eq_of_lt small, zero_add]

/-- The bits of a byte string, least significant bit first. -/
def bytesBits (bytes : List UInt8) : List Bool := bytes.flatMap fun byte => lsbBits 8 byte.toNat

@[simp]
theorem bytesBits_cons (byte : UInt8) (bytes : List UInt8) :
    bytesBits (byte :: bytes) = lsbBits 8 byte.toNat ++ bytesBits bytes := rfl

@[simp]
theorem length_bytesBits (bytes : List UInt8) : (bytesBits bytes).length = 8 * bytes.length := by
  induction bytes with
  | nil => rfl
  | cons byte bytes ih =>
    rw [bytesBits_cons, length_append, length_lsbBits, length_cons]
    omega

end SmartOs.Math
