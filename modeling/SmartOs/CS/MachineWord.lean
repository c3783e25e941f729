/-
# Machine words that remember overflow

A word of `w` bits wraps around where a build without overflow checks does. Its flag is off as
soon as one of the sums, differences or products that led to it has overflowed, so a word whose
flag is on has the same value in a build with checks, which would have stopped otherwise.

`Upto x n bound` says that nothing overflowed on the way to `x`, that its value is `n`, and that
this is at most `bound`. The bounds are closed numbers in the proofs about code, so that the
conditions of the rules below are decided by computation.
-/

import Mathlib.Data.BitVec
import Mathlib.Tactic.Linarith

namespace SmartOs.CS

open Nat hiding xor

@[ext]
structure Word (w : ℕ) where
  bits : BitVec w
  fits : Bool
  deriving DecidableEq

namespace Word

variable {w v : ℕ}

def value (x : Word w) : ℕ := x.bits.toNat

/-- A constant, or a value read from memory. -/
def ofNat (w n : ℕ) : Word w := ⟨BitVec.ofNat w n, true⟩

instance (n : ℕ) : OfNat (Word w) n := ⟨ofNat w n⟩

instance : Add (Word w) :=
  ⟨fun x y => ⟨x.bits + y.bits, x.fits && y.fits && !x.bits.uaddOverflow y.bits⟩⟩

instance : Sub (Word w) :=
  ⟨fun x y => ⟨x.bits - y.bits, x.fits && y.fits && !x.bits.usubOverflow y.bits⟩⟩

instance : Mul (Word w) :=
  ⟨fun x y => ⟨x.bits * y.bits, x.fits && y.fits && !x.bits.umulOverflow y.bits⟩⟩

/-- Shifts drop bits, which is no overflow. -/
instance : HShiftRight (Word w) ℕ (Word w) := ⟨fun x k => ⟨x.bits >>> k, x.fits⟩⟩

instance : HShiftLeft (Word w) ℕ (Word w) := ⟨fun x k => ⟨x.bits <<< k, x.fits⟩⟩

instance : AndOp (Word w) := ⟨fun x y => ⟨x.bits &&& y.bits, x.fits && y.fits⟩⟩

instance : OrOp (Word w) := ⟨fun x y => ⟨x.bits ||| y.bits, x.fits && y.fits⟩⟩

instance : XorOp (Word w) := ⟨fun x y => ⟨x.bits ^^^ y.bits, x.fits && y.fits⟩⟩

instance : Complement (Word w) := ⟨fun x => ⟨~~~x.bits, x.fits⟩⟩

def wrappingSub (x y : Word w) : Word w := ⟨x.bits - y.bits, x.fits && y.fits⟩

/-- A cast to another width cuts off what is too high. -/
def cast (v : ℕ) (x : Word w) : Word v := ⟨x.bits.setWidth v, x.fits⟩

protected theorem add_zero (x : Word w) : x + 0 = x := by
  ext : 1
  · exact BitVec.add_zero x.bits
  · change (x.fits && true && !x.bits.uaddOverflow 0#w) = x.fits
    simp [BitVec.uaddOverflow, x.bits.isLt]

structure Upto (x : Word w) (n bound : ℕ) : Prop where
  fits : x.fits
  value : x.value = n
  le : n ≤ bound

variable {k : ℕ}

theorem toNat_or_shiftLeft {a b : BitVec w} (low : a.toNat < 2 ^ k) (inside : k ≤ w) :
    (a ||| b <<< k).toNat = a.toNat + b.toNat * 2 ^ k % 2 ^ w := by
  have cut : b.toNat * 2 ^ k % 2 ^ w = 2 ^ k * (b.toNat % 2 ^ (w - k)) := by
    rw [mul_comm, ← mul_mod_mul_left, ← pow_add, add_sub_of_le inside]
  rw [BitVec.toNat_or, BitVec.toNat_shiftLeft, shiftLeft_eq, cut, Nat.or_comm, add_comm,
    two_pow_add_eq_or_of_lt low]

namespace Upto

variable {x y : Word w} {m n b c : ℕ}

theorem toNat (upto : Upto x n b) : x.bits.toNat = n := upto.value

section

variable (first : Upto x m b) (second : Upto y n c)

include first second

theorem fits_and : (x.fits && y.fits) := by
  rw [first.fits, second.fits]
  rfl

theorem fits_and_not {overflow : Bool} (none : overflow = false) :
    (x.fits && y.fits && !overflow) := by
  rw [first.fits_and second, none]
  rfl

theorem add (room : b + c < 2 ^ w) : Upto (x + y) (m + n) (b + c) := by
  have le := Nat.add_le_add first.le second.le
  have small : x.bits.toNat + y.bits.toNat < 2 ^ w := by
    rw [first.toNat, second.toNat]
    exact le.trans_lt room
  refine ⟨first.fits_and_not second (decide_eq_false (not_le.mpr small)), ?_, le⟩
  change (x.bits + y.bits).toNat = _
  rw [BitVec.toNat_add, mod_eq_of_lt small, first.toNat, second.toNat]

theorem mul (room : b * c < 2 ^ w) : Upto (x * y) (m * n) (b * c) := by
  have le := Nat.mul_le_mul first.le second.le
  have small : x.bits.toNat * y.bits.toNat < 2 ^ w := by
    rw [first.toNat, second.toNat]
    exact le.trans_lt room
  refine ⟨first.fits_and_not second (decide_eq_false (not_le.mpr small)), ?_, le⟩
  change (x.bits * y.bits).toNat = _
  rw [BitVec.toNat_mul, mod_eq_of_lt small, first.toNat, second.toNat]

theorem sub (above : n ≤ m) : Upto (x - y) (m - n) b := by
  have ordered : y.bits.toNat ≤ x.bits.toNat := by
    rwa [first.toNat, second.toNat]
  refine ⟨first.fits_and_not second (decide_eq_false (not_lt.mpr ordered)), ?_,
    (sub_le m n).trans first.le⟩
  change (x.bits - y.bits).toNat = _
  rw [BitVec.toNat_sub_of_le (by rwa [BitVec.le_def]), first.toNat, second.toNat]

theorem and : Upto (x &&& y) (m &&& n) c := by
  refine ⟨?_, ?_, and_le_right.trans second.le⟩
  · exact first.fits_and second
  · change (x.bits &&& y.bits).toNat = _
    rw [BitVec.toNat_and, first.toNat, second.toNat]

theorem xor : Upto (x ^^^ y) (m ^^^ n) (2 ^ w - 1) := by
  have value : (x ^^^ y).value = m ^^^ n := by
    change (x.bits ^^^ y.bits).toNat = _
    rw [BitVec.toNat_xor, first.toNat, second.toNat]
  refine ⟨?_, value, ?_⟩
  · exact first.fits_and second
  · rw [← value]
    exact le_sub_one_of_lt (BitVec.isLt _)

theorem orShift_mod (low : b < 2 ^ k) (inside : k ≤ w) :
    Upto (x ||| y <<< k) (m + n * 2 ^ k % 2 ^ w) (2 ^ w - 1) := by
  have value : (x ||| y <<< k).value = m + n * 2 ^ k % 2 ^ w := by
    change (x.bits ||| y.bits <<< k).toNat = _
    have below : x.bits.toNat < 2 ^ k := first.toNat.trans_lt (first.le.trans_lt low)
    rw [toNat_or_shiftLeft below inside, first.toNat, second.toNat]
  refine ⟨?_, value, ?_⟩
  · exact (first.fits_and second :)
  · rw [← value]
    exact le_sub_one_of_lt (BitVec.isLt _)

theorem orShift (low : b < 2 ^ k) (room : c * 2 ^ k < 2 ^ w) :
    Upto (x ||| y <<< k) (m + n * 2 ^ k) (b + c * 2 ^ k) := by
  refine ⟨?_, ?_, Nat.add_le_add first.le (Nat.mul_le_mul_right _ second.le)⟩
  · exact (first.fits_and second :)
  change (x.bits ||| y.bits <<< k).toNat = _
  have small : n * 2 ^ k < 2 ^ w := (mul_le_mul_right _ second.le).trans_lt room
  rw [BitVec.toNat_or, BitVec.toNat_shiftLeft, shiftLeft_eq, first.toNat, second.toNat,
    mod_eq_of_lt small, Nat.or_comm, mul_comm, add_comm,
    two_pow_add_eq_or_of_lt (first.le.trans_lt low)]

end

theorem mono (upto : Upto x n b) (weaker : b ≤ c) : Upto x n c :=
  ⟨upto.fits, upto.value, upto.le.trans weaker⟩

theorem tighten (upto : Upto x n b) (stronger : n ≤ c) : Upto x n c :=
  ⟨upto.fits, upto.value, stronger⟩

theorem congr (upto : Upto x n b) (equal : n = m) : Upto x m b := equal ▸ upto

theorem ofNat (small : n < 2 ^ w) : Upto (ofNat w n) n n :=
  ⟨rfl, by rw [Word.value, Word.ofNat, BitVec.toNat_ofNat, mod_eq_of_lt small], le_rfl⟩

theorem shiftRight (upto : Upto x n b) (k : ℕ) : Upto (x >>> k) (n / 2 ^ k) (b / 2 ^ k) := by
  refine ⟨upto.fits, ?_, Nat.div_le_div_right upto.le⟩
  change (x.bits >>> k).toNat = _
  rw [BitVec.toNat_ushiftRight, shiftRight_eq_div_pow, upto.toNat]

theorem mask (upto : Upto x n b) (low : Upto y (2 ^ k - 1) c) :
    Upto (x &&& y) (n % 2 ^ k) (2 ^ k - 1) := by
  refine ⟨?_, ?_, ?_⟩
  · exact upto.fits_and low
  · change (x.bits &&& y.bits).toNat = _
    rw [BitVec.toNat_and, low.toNat, and_two_pow_sub_one_eq_mod, upto.toNat]
  · exact le_sub_one_of_lt (mod_lt _ (Nat.two_pow_pos k))

theorem cast (upto : Upto x n b) (room : b < 2 ^ v) : Upto (x.cast v) n b := by
  refine ⟨upto.fits, ?_, upto.le⟩
  change (x.bits.setWidth v).toNat = n
  rw [BitVec.toNat_setWidth, upto.toNat, mod_eq_of_lt (upto.le.trans_lt room)]

/-- What a cast to fewer bits keeps. -/
theorem value_cast (upto : Upto x n b) (v : ℕ) : (x.cast v).value = n % 2 ^ v := by
  change (x.bits.setWidth v).toNat = _
  rw [BitVec.toNat_setWidth, upto.toNat]

theorem getLsbD_sub_one (d : BitVec w) {j : ℕ} (inside : j < w) :
    (d - 1#w).getLsbD j = decide (d.toNat = 0 ∨ (d.toNat - 1).testBit j) := by
  by_cases none : d = 0#w
  · rw [none, BitVec.zero_sub, BitVec.neg_one_eq_allOnes]
    simp [inside]
  have ne : d.toNat ≠ 0 := fun zero => none (BitVec.eq_of_toNat_eq (by simpa using zero))
  have one : (1#w).toNat = 1 := by simp [zero_lt_of_lt inside]
  have le : 1#w ≤ d := by
    rw [BitVec.le_def, one]
    exact pos_of_ne_zero ne
  rw [BitVec.getLsbD, BitVec.toNat_sub_of_le le, one]
  simp [ne]

/-- A choice by the mask that is minus `d`: bit by bit, the first word where `d - 1` has a one. With
`d` zero or one this takes one of the words as a whole. -/
theorem select {d : Word w} {e : ℕ} (first : Upto x m (2 ^ k - 1)) (second : Upto y n (2 ^ k - 1))
    (chosen : Upto d e c) :
    ∃ v, Upto ((x &&& ~~~(wrappingSub 0 d)) ||| (y &&& wrappingSub 0 d)) v (2 ^ k - 1) ∧
      ∀ j < w, v.testBit j =
        if e = 0 ∨ (e - 1).testBit j then m.testBit j else n.testBit j := by
  obtain ⟨fits, rfl, first⟩ := first
  obtain ⟨fits', rfl, second⟩ := second
  obtain ⟨fits'', rfl, chosen⟩ := chosen
  refine ⟨_, ⟨?_, rfl, ?_⟩, ?_⟩
  · change (x.fits && (true && d.fits) && (y.fits && (true && d.fits)))
    rw [fits, fits', fits'']
    rfl
  · have below {z v : BitVec w} (le : z.toNat ≤ 2 ^ k - 1) : (z &&& v).toNat < 2 ^ k := by
      exact (and_le_left.trans le).trans_lt (Nat.sub_one_lt (Nat.two_pow_pos k).ne')
    refine le_sub_one_of_lt ?_
    exact or_lt_two_pow (below first) (below second)
  intro j inside
  have mask : ~~~(0#w - d.bits) = d.bits - 1#w := by rw [BitVec.zero_sub, BitVec.not_neg]
  have mask' : 0#w - d.bits = ~~~(d.bits - 1#w) := by rw [← mask, BitVec.not_not]
  have bit := getLsbD_sub_one d.bits inside
  rw [show d.bits.toNat = d.value from rfl] at bit
  change ((x.bits &&& ~~~(0#w - d.bits)) ||| (y.bits &&& (0#w - d.bits))).getLsbD j = _
  rw [BitVec.getLsbD_or, BitVec.getLsbD_and, BitVec.getLsbD_and, mask, mask',
    BitVec.getLsbD_not, bit, decide_eq_true inside]
  split
  · next first => simp [first]; rfl
  · next second => simp [second]; rfl

end Upto

end Word

end SmartOs.CS
