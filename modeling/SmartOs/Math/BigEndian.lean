/-
# Big-endian numbers

The number a list of bytes stands for, most significant byte first, and the shortest list that
stands for a number.
-/

import SmartOs.Math.LittleEndian

namespace SmartOs.Math

open List Nat

/-- The number whose big-endian bytes are `bytes`. -/
def ofBeBytes (bytes : List UInt8) : ℕ := ofLeBytes bytes.reverse

/-- The big-endian bytes of a number, without leading zeros. -/
def toBeBytes (value : ℕ) : List UInt8 := ((digits 256 value).map UInt8.ofNat).reverse

@[simp] theorem ofBeBytes_nil : ofBeBytes [] = 0 := rfl

theorem ofBeBytes_append (high low : List UInt8) :
    ofBeBytes (high ++ low) = ofBeBytes high * 256 ^ low.length + ofBeBytes low := by
  rw [ofBeBytes, reverse_append, ofLeBytes_append, length_reverse, mul_comm, add_comm]
  rfl

theorem ofBeBytes_cons (byte : UInt8) (bytes : List UInt8) :
    ofBeBytes (byte :: bytes) = byte.toNat * 256 ^ bytes.length + ofBeBytes bytes := by
  have whole := ofBeBytes_append [byte] bytes
  rwa [singleton_append] at whole

theorem ofBeBytes_lt (bytes : List UInt8) : ofBeBytes bytes < 256 ^ bytes.length := by
  have := ofLeBytes_lt bytes.reverse
  rwa [length_reverse] at this

/-- Bytes are determined by their number and their value. -/
theorem ofBeBytes_injective {xs ys : List UInt8} (length : xs.length = ys.length)
    (value : ofBeBytes xs = ofBeBytes ys) : xs = ys := by
  have digits : xs.reverse.map UInt8.toNat = ys.reverse.map UInt8.toNat := by
    exact ofDigits_inj_of_len_eq (b := 256) (by decide) (by simpa using length) (digit_lt _)
      (digit_lt _) value
  have injective : Function.Injective UInt8.toNat := fun a b same => UInt8.toNat_inj.mp same
  exact reverse_injective (map_injective_iff.mpr injective digits)

/-- The `width` low-order bytes of `value`, most significant first. -/
def beBytesOn (width value : ℕ) : List UInt8 := (toLeBytes width value).reverse

@[simp] theorem length_beBytesOn (width value : ℕ) : (beBytesOn width value).length = width := by
  simp [beBytesOn]

theorem ofBeBytes_beBytesOn_mod (width value : ℕ) :
    ofBeBytes (beBytesOn width value) = value % 256 ^ width := by
  rw [ofBeBytes, beBytesOn, reverse_reverse, ofLeBytes_toLeBytes]

variable {width value : ℕ}

theorem ofBeBytes_beBytesOn (fits : value < 256 ^ width) :
    ofBeBytes (beBytesOn width value) = value := by
  rw [ofBeBytes_beBytesOn_mod, mod_eq_of_lt fits]

variable {bytes : List UInt8}

theorem eq_beBytesOn_iff (fits : value < 256 ^ width) :
    bytes = beBytesOn width value ↔ bytes.length = width ∧ ofBeBytes bytes = value := by
  constructor
  · rintro rfl
    exact ⟨length_beBytesOn width value, ofBeBytes_beBytesOn fits⟩
  · rintro ⟨length, rfl⟩
    exact ofBeBytes_injective (by simpa using length) (ofBeBytes_beBytesOn fits).symm

theorem ofBeBytes_toBeBytes (value : ℕ) : ofBeBytes (toBeBytes value) = value := by
  have back : (digits 256 value).map (UInt8.toNat ∘ UInt8.ofNat) = digits 256 value := by
    conv_rhs => rw [← map_id (digits 256 value)]
    apply map_congr_left
    intro digit mem
    exact UInt8.toNat_ofNat_of_lt' (digits_lt_base (by decide) mem)
  rw [ofBeBytes, toBeBytes, reverse_reverse, ofLeBytes, map_map, back, ofDigits_digits]

theorem length_toBeBytes_le (fits : value < 256 ^ width) : (toBeBytes value).length ≤ width := by
  simpa [toBeBytes] using (digits_length_le_iff (by decide) value).mpr fits

theorem ofBeBytes_take {k : ℕ} (inside : k ≤ bytes.length) :
    ofBeBytes (bytes.take (bytes.length - k)) = ofBeBytes bytes / 256 ^ k := by
  rw [ofBeBytes, reverse_take, Nat.sub_sub_self inside, ofLeBytes_drop]
  rfl

theorem ofBeBytes_drop (bytes : List UInt8) (k : ℕ) :
    ofBeBytes (bytes.drop (bytes.length - k)) = ofBeBytes bytes % 256 ^ k := by
  have last : (bytes.drop (bytes.length - k)).reverse = bytes.reverse.take k :=
    take_reverse.symm
  rw [ofBeBytes, last, ofLeBytes_take]
  rfl

/-- Reading byte by byte into a word of 64 bits keeps the low bits. -/
theorem foldl_shift_or (bytes : List UInt8) (acc : ℕ) :
    bytes.foldl (fun l b => (l <<< 8 ||| b.toNat) % 2 ^ 64) (acc % 2 ^ 64) =
      (acc * 256 ^ bytes.length + ofBeBytes bytes) % 2 ^ 64 := by
  induction bytes generalizing acc with
  | nil => simp
  | cons byte bytes ih =>
    have small := byte.toNat_lt
    have merged : (acc % 2 ^ 64) <<< 8 ||| byte.toNat = (acc % 2 ^ 64) * 256 + byte.toNat := by
      rw [← shiftLeft_add_eq_or_of_lt small, shiftLeft_eq]
    have step : (acc % 2 ^ 64 * 256 + byte.toNat) % 2 ^ 64 =
        (acc * 256 + byte.toNat) % 2 ^ 64 := by
      omega
    rw [foldl_cons, merged, step, ih, ofBeBytes_cons, length_cons]
    refine congrArg (· % 2 ^ 64) ?_
    ring

theorem foldl_shift_or_of_lt (fits : ofBeBytes bytes < 2 ^ 64) :
    bytes.foldl (fun l b => (l <<< 8 ||| b.toNat) % 2 ^ 64) 0 = ofBeBytes bytes := by
  have word := foldl_shift_or bytes 0
  rwa [zero_mul, zero_add, mod_eq_of_lt fits] at word

end SmartOs.Math
