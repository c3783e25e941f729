/-
# Little-endian words

A natural number below `256 ^ width` and a list of `width` bytes carry the same
information. The two directions are `toLeBytes` and `ofLeBytes`; they are mutually
inverse on words of a fixed width, and every fixed-width codec below is one of their
instances.
-/

import Mathlib.Data.Nat.Digits.Lemmas

namespace SmartOs.Math

open List Nat

abbrev Bytes (size : ℕ) := { bytes : List UInt8 // bytes.length = size }

/-- The `width` low-order bytes of `value`, least significant first. -/
def toLeBytes : (width value : ℕ) → List UInt8
  | 0, _ => []
  | width + 1, value => UInt8.ofNat value :: toLeBytes width (value / 256)

/-- The number whose little-endian bytes are `bytes`. -/
def ofLeBytes (bytes : List UInt8) : ℕ :=
  ofDigits 256 (bytes.map UInt8.toNat)

@[simp] theorem ofLeBytes_nil : ofLeBytes [] = 0 := rfl

@[simp] theorem ofLeBytes_cons (byte : UInt8) (bytes : List UInt8) :
    ofLeBytes (byte :: bytes) = byte.toNat + 256 * ofLeBytes bytes := by
  simp [ofLeBytes, ofDigits_cons]

@[simp] theorem toLeBytes_length (width value : ℕ) : (toLeBytes width value).length = width := by
  induction width generalizing value with
  | zero => rfl
  | succ width ih => simp [toLeBytes, ih]

/-- Reading back a written word recovers the number modulo the word size. -/
theorem ofLeBytes_toLeBytes (width value : ℕ) :
    ofLeBytes (toLeBytes width value) = value % 256 ^ width := by
  induction width generalizing value with
  | zero => simp [toLeBytes, mod_one]
  | succ width ih =>
    rw [toLeBytes, ofLeBytes_cons, ih, pow_succ', mod_mul]
    simp

variable {width : ℕ}

/-- Words that fit their width survive being written and read back. -/
theorem ofLeBytes_toLeBytes_of_lt {value : ℕ} (fits : value < 256 ^ width) :
    ofLeBytes (toLeBytes width value) = value := by
  rw [ofLeBytes_toLeBytes, mod_eq_of_lt fits]

theorem ofLeBytes_append (low high : List UInt8) :
    ofLeBytes (low ++ high) = ofLeBytes low + 256 ^ low.length * ofLeBytes high := by
  simp [ofLeBytes, ofDigits_append]

variable (bytes : List UInt8)

theorem digit_lt : ∀ digit ∈ bytes.map UInt8.toNat, digit < 256 :=
  forall_mem_map.mpr fun byte _ => byte.toNat_lt

theorem ofLeBytes_lt : ofLeBytes bytes < 256 ^ bytes.length := by
  have small := ofDigits_lt_base_pow_length (by decide) (digit_lt bytes)
  rwa [length_map] at small

theorem ofLeBytes_drop (i : ℕ) : ofLeBytes (bytes.drop i) = ofLeBytes bytes / 256 ^ i := by
  rw [ofLeBytes, map_drop, ← ofDigits_div_pow_eq_ofDigits_drop i (by decide) _ (digit_lt bytes)]
  rfl

/-- A byte as a digit. Beyond the end both are zero. -/
theorem toNat_getD (i : ℕ) : (bytes.getD i 0).toNat = ofLeBytes bytes / 256 ^ i % 256 := by
  rw [← ofLeBytes_drop, getD_eq_getElem?_getD, ← head?_drop]
  cases bytes.drop i with
  | nil => rfl
  | cons byte rest =>
    rw [ofLeBytes_cons, add_mul_mod_self_left, mod_eq_of_lt byte.toNat_lt]
    rfl

theorem ofLeBytes_take (i : ℕ) : ofLeBytes (bytes.take i) = ofLeBytes bytes % 256 ^ i := by
  rw [ofLeBytes, map_take, ← ofDigits_mod_pow_eq_ofDigits_take i (by decide) _ (digit_lt bytes)]
  rfl

theorem toLeBytes_add (m n value : ℕ) :
    toLeBytes (m + n) value = toLeBytes m value ++ toLeBytes n (value / 256 ^ m) := by
  induction m generalizing value with
  | zero => simp [toLeBytes]
  | succ m ih =>
    rw [succ_add, toLeBytes, ih, toLeBytes, cons_append, Nat.div_div_eq_div_mul, pow_succ']

theorem toLeBytes_mod (value : ℕ) :
    toLeBytes width (value % 256 ^ width) = toLeBytes width value := by
  induction width generalizing value with
  | zero => rfl
  | succ width ih =>
    have byte : UInt8.ofNat (value % 256 ^ (width + 1)) = UInt8.ofNat value := by
      refine UInt8.toNat_inj.mp ?_
      rw [pow_succ']
      exact mod_mul_right_mod _ _ _
    rw [toLeBytes, toLeBytes, byte, pow_succ', mod_mul_right_div_self, ih]

theorem toLeBytes_inj {v v' : ℕ} :
    toLeBytes width v = toLeBytes width v' ↔ v % 256 ^ width = v' % 256 ^ width := by
  constructor
  · intro same
    rw [← ofLeBytes_toLeBytes, same, ofLeBytes_toLeBytes]
  · intro same
    rw [← toLeBytes_mod, same, toLeBytes_mod]

/-! ## Fields of a record -/

/-- The `width` bytes from `offset` on. -/
def field (offset width : ℕ) (bytes : List UInt8) : List UInt8 := (bytes.drop offset).take width

variable {offset : ℕ}

theorem length_field {bytes : List UInt8} (inside : offset + width ≤ bytes.length) :
    (field offset width bytes).length = width := by
  rw [field, length_take, length_drop]
  omega

theorem ofLeBytes_field (offset width : ℕ) (bytes : List UInt8) :
    ofLeBytes (field offset width bytes) = ofLeBytes bytes / 256 ^ offset % 256 ^ width := by
  rw [field, ofLeBytes_take, ofLeBytes_drop]

theorem field_zero_append {xs : List UInt8} (length : xs.length = width) (ys : List UInt8) :
    field 0 width (xs ++ ys) = xs := by
  rw [field, drop_zero, take_left' length]

theorem field_append {xs : List UInt8} (behind : xs.length ≤ offset) (ys : List UInt8) :
    field offset width (xs ++ ys) = field (offset - xs.length) width ys := by
  rw [field, drop_append, drop_eq_nil_of_le behind, nil_append, field]

theorem field_field {start length : ℕ} (inside : offset + width ≤ length) (bytes : List UInt8) :
    field offset width (field start length bytes) = field (start + offset) width bytes := by
  rw [field, field, field, drop_take, drop_drop, take_take, min_eq_left (by omega)]

/-- A part of a record of parts of one width. -/
theorem field_flatten {i : ℕ} {part : List UInt8} {parts : List (List UInt8)}
    (widths : ∀ part ∈ parts, part.length = width) (at_i : parts[i]? = some part) :
    field (i * width) width parts.flatten = part := by
  induction parts generalizing i with
  | nil => cases at_i
  | cons first parts ih =>
    obtain ⟨length, others⟩ := forall_mem_cons.mp widths
    rw [flatten_cons]
    cases i with
    | zero =>
      cases at_i
      rw [zero_mul, field_zero_append length]
    | succ i =>
      rw [field_append (by rw [length, succ_mul]; exact Nat.le_add_left ..), length,
        succ_mul, Nat.add_sub_cancel]
      exact ih others at_i

end SmartOs.Math
