/-
# Arithmetic on limbs

A natural number as the list of its limbs, least significant first, in any base. The value of
the list is `Nat.ofDigits`. For each of the schoolbook algorithms there is one theorem that
says what it does to the values.
-/

import Mathlib.Data.Nat.Digits.Lemmas
import Mathlib.Data.Nat.Size

namespace SmartOs.Math

open List Nat

namespace Limbs

/-- Every limb is below the base. -/
def AreLimbs (B : ℕ) (limbs : List ℕ) : Prop := ∀ limb ∈ limbs, limb < B

variable {B : ℕ}
variable {a : ℕ} {as limbs bs : List ℕ}

theorem AreLimbs.head (limbs : AreLimbs B (a :: as)) : a < B :=
  limbs a mem_cons_self

theorem AreLimbs.tail (limbs : AreLimbs B (a :: as)) : AreLimbs B as :=
  fun limb mem => limbs limb (mem_cons_of_mem _ mem)

theorem AreLimbs.take (below : AreLimbs B limbs) (n : ℕ) : AreLimbs B (limbs.take n) :=
  fun limb mem => below limb (mem_of_mem_take mem)

theorem AreLimbs.cons (small : a < B) (limbs : AreLimbs B as) : AreLimbs B (a :: as) :=
  forall_mem_cons.mpr ⟨small, limbs⟩

/-! ## Values -/

theorem ofDigits_eq_zero_iff (pos : 0 < B) : ofDigits B limbs = 0 ↔ ∀ limb ∈ limbs, limb = 0 := by
  induction limbs with
  | nil => simp
  | cons a as ih =>
    rw [ofDigits_cons, forall_mem_cons, ← ih]
    constructor
    · intro zero
      have parts := Nat.add_eq_zero_iff.mp zero
      exact ⟨parts.1, (Nat.mul_eq_zero.mp parts.2).resolve_left pos.ne'⟩
    · rintro ⟨rfl, rest⟩
      simp [rest]

theorem le_ofDigits {top : ℕ} (last : limbs.getLast? = some top) (pos : top ≠ 0) :
    B ^ (limbs.length - 1) ≤ ofDigits B limbs := by
  obtain ⟨low, rfl⟩ := getLast?_eq_some_iff.mp last
  rw [ofDigits_append, length_append]
  exact (Nat.le_mul_of_pos_right _ (Nat.pos_of_ne_zero pos)).trans (Nat.le_add_left _ _)

theorem ofDigits_range (v n : ℕ) :
    ofDigits B ((range n).map fun i => v / B ^ i % B) = v % B ^ n := by
  induction n with
  | zero => simp [mod_one]
  | succ n ih =>
    rw [range_succ, map_append, ofDigits_append, ih, map_singleton,
      ofDigits_singleton, length_map, length_range, mod_pow_succ]

/-! ## Normal form -/

/-- Drop zero limbs at the top, but keep at least one limb. -/
def normalize : List ℕ → List ℕ
  | [] => [0]
  | a :: as => if normalize as = [0] then [a] else a :: normalize as

theorem normalize_ne_nil (limbs : List ℕ) : normalize limbs ≠ [] := by
  cases limbs with
  | nil => simp [normalize]
  | cons a as =>
    rw [normalize]
    split <;> simp

theorem ofDigits_normalize (limbs : List ℕ) : ofDigits B (normalize limbs) = ofDigits B limbs := by
  induction limbs with
  | nil => simp [normalize]
  | cons a as ih =>
    rw [normalize, ofDigits_cons, ← ih]
    split
    · rename_i zero
      simp [zero]
    · rw [ofDigits_cons]

theorem length_normalize_le (limbs : List ℕ) : (normalize limbs).length ≤ max limbs.length 1 := by
  induction limbs with
  | nil => simp [normalize]
  | cons a as ih =>
    rw [normalize]
    split
    · simp
    rename_i more
    cases as with
    | nil => exact absurd rfl more
    | cons b bs =>
      simp only [length_cons] at ih ⊢
      omega

theorem areLimbs_normalize (pos : 0 < B) (below : AreLimbs B limbs) :
    AreLimbs B (normalize limbs) := by
  induction limbs with
  | nil => simpa [normalize, AreLimbs] using pos
  | cons a as ih =>
    rw [normalize]
    split
    · exact AreLimbs.cons below.head (by simp [AreLimbs])
    · exact AreLimbs.cons below.head (ih below.tail)

/-- A normal form of several limbs does not end in zero. -/
theorem getLast_normalize (limbs : List ℕ) :
    (normalize limbs).length = 1 ∨ (normalize limbs).getLast? ≠ some 0 := by
  induction limbs with
  | nil => exact .inl rfl
  | cons a as ih =>
    rw [normalize]
    split
    · exact .inl rfl
    rename_i more
    right
    obtain ⟨b, bs, form⟩ := exists_cons_of_ne_nil (normalize_ne_nil as)
    rw [form, getLast?_cons_cons, ← form]
    rcases ih with one | ne
    · intro zero
      simp_all
    · exact ne

/-! ## Comparison -/

/-- Compare from the most significant limb down; missing limbs are zero. -/
def compareLimbs : List ℕ → List ℕ → Ordering
  | [], [] => .eq
  | a :: as, [] => (compareLimbs as []).then (compare a 0)
  | [], b :: bs => (compareLimbs [] bs).then (compare 0 b)
  | a :: as, b :: bs => (compareLimbs as bs).then (compare a b)

theorem compare_cons {b u v : ℕ} (smallA : a < B) (smallB : b < B) :
    compare (a + B * u) (b + B * v) = (compare u v).then (compare a b) := by
  rcases lt_trichotomy u v with less | rfl | more
  · have step : B * (u + 1) ≤ B * v := mul_le_mul_left B less
    rw [mul_add] at step
    rw [Nat.compare_eq_lt.mpr less, Nat.compare_eq_lt.mpr (by omega)]
    rfl
  · rw [Nat.compare_eq_eq.mpr rfl, Ordering.eq_then]
    rcases lt_trichotomy a b with less | rfl | more
    · rw [Nat.compare_eq_lt.mpr less, Nat.compare_eq_lt.mpr (by omega)]
    · rw [Nat.compare_eq_eq.mpr rfl, Nat.compare_eq_eq.mpr rfl]
    · rw [Nat.compare_eq_gt.mpr more, Nat.compare_eq_gt.mpr (by omega)]
  · have step : B * (v + 1) ≤ B * u := mul_le_mul_left B more
    rw [mul_add] at step
    rw [Nat.compare_eq_gt.mpr more, Nat.compare_eq_gt.mpr (by omega)]
    rfl

theorem compareLimbs_eq (limbsA : AreLimbs B as) (limbsB : AreLimbs B bs) :
    compareLimbs as bs = compare (ofDigits B as) (ofDigits B bs) := by
  fun_induction compareLimbs as bs with
  | case1 => rfl
  | case2 a as ih =>
    rw [ih limbsA.tail limbsB, ofDigits_cons, ← compare_cons limbsA.head
      (zero_lt_of_lt limbsA.head)]
    simp
  | case3 b bs ih =>
    rw [ih limbsA limbsB.tail, ofDigits_cons, ← compare_cons (zero_lt_of_lt limbsB.head)
      limbsB.head]
    simp
  | case4 a as b bs ih =>
    rw [ih limbsA.tail limbsB.tail, ofDigits_cons, ofDigits_cons,
      compare_cons limbsA.head limbsB.head]

/-! ## Subtraction -/

/-- One limb of a difference and the borrow for the next one. -/
def subStep (B a b borrow : ℕ) : ℕ × ℕ :=
  let diff := (a + B - b) % B
  ((diff + B - borrow) % B, (if a < b then 1 else 0) + if diff < borrow then 1 else 0)

theorem subStep_spec {b borrow : ℕ} (smallA : a < B) (smallB : b < B) (bit : borrow ≤ 1) :
    (subStep B a b borrow).1 + b + borrow = a + B * (subStep B a b borrow).2 ∧
      (subStep B a b borrow).1 < B ∧ (subStep B a b borrow).2 ≤ 1 := by
  -- a difference wraps around exactly if it is negative
  have wrap {x y : ℕ} (smallX : x < B) (smallY : y ≤ B) :
      (x + B - y) % B = if x < y then x + B - y else x - y := by
    split
    · exact mod_eq_of_lt (by omega)
    · rw [(by omega : x + B - y = x - y + B), add_mod_right, mod_eq_of_lt (by omega)]
  simp only [subStep, wrap smallA smallB.le]
  split_ifs <;> rw [wrap (by omega) (by omega)] <;> split_ifs <;> omega

/-- Subtract limb by limb with a borrow; missing limbs are zero. -/
def subLimbs (B : ℕ) : List ℕ → List ℕ → ℕ → List ℕ
  | [], [], _ => []
  | a :: as, [], borrow =>
    (subStep B a 0 borrow).1 :: subLimbs B as [] (subStep B a 0 borrow).2
  | [], b :: bs, borrow =>
    (subStep B 0 b borrow).1 :: subLimbs B [] bs (subStep B 0 b borrow).2
  | a :: as, b :: bs, borrow =>
    (subStep B a b borrow).1 :: subLimbs B as bs (subStep B a b borrow).2

theorem length_subLimbs (as bs : List ℕ) (borrow : ℕ) :
    (subLimbs B as bs borrow).length = max as.length bs.length := by
  fun_induction subLimbs B as bs borrow with
  | case1 => rfl
  | case2 _ _ _ ih | case3 _ _ _ ih | case4 _ _ _ _ _ ih => simp [ih]

/-- The difference, up to a borrow from beyond the last limb. -/
theorem subLimbs_spec (pos : 0 < B) {borrow : ℕ} (limbsA : AreLimbs B as)
    (limbsB : AreLimbs B bs) (bit : borrow ≤ 1) : AreLimbs B (subLimbs B as bs borrow) ∧ ∃ out ≤ 1,
      ofDigits B (subLimbs B as bs borrow) + ofDigits B bs + borrow =
        ofDigits B as + B ^ (max as.length bs.length) * out := by
  -- one more limb, given the claim for the limbs above it
  have step {a b borrow : ℕ} {rest : List ℕ} {u v n : ℕ} (smallA : a < B) (smallB : b < B)
      (bit : borrow ≤ 1) (above : (subStep B a b borrow).2 ≤ 1 → AreLimbs B rest ∧
        ∃ out ≤ 1, ofDigits B rest + v + (subStep B a b borrow).2 = u + B ^ n * out) :
      AreLimbs B ((subStep B a b borrow).1 :: rest) ∧
        ∃ out ≤ 1, ofDigits B ((subStep B a b borrow).1 :: rest) + (b + B * v) + borrow =
          a + B * u + B ^ (n + 1) * out := by
    obtain ⟨limb, low, bit'⟩ := subStep_spec smallA smallB bit
    obtain ⟨limbs, out, small, value⟩ := above bit'
    refine ⟨AreLimbs.cons low limbs, out, small, ?_⟩
    calc (subStep B a b borrow).1 + B * ofDigits B rest + (b + B * v) + borrow
        = ((subStep B a b borrow).1 + b + borrow) + B * (ofDigits B rest + v) := by ring
      _ = a + B * (ofDigits B rest + v + (subStep B a b borrow).2) := by
          rw [limb]
          ring
      _ = a + B * u + B ^ (n + 1) * out := by
          rw [value]
          ring
  fun_induction subLimbs B as bs borrow with
  | case1 borrow => exact ⟨by simp [AreLimbs], borrow, bit, by simp⟩
  | case2 a as borrow ih =>
    simpa [ofDigits_cons] using step limbsA.head pos bit (ih limbsA.tail limbsB)
  | case3 b bs borrow ih =>
    simpa [ofDigits_cons] using step pos limbsB.head bit (ih limbsA limbsB.tail)
  | case4 a as b bs borrow ih =>
    rw [length_cons, length_cons, Nat.add_max_add_right]
    exact step limbsA.head limbsB.head bit (ih limbsA.tail limbsB.tail)

theorem ofDigits_subLimbs (large : 1 < B) (limbsA : AreLimbs B as) (limbsB : AreLimbs B bs)
    (less : ofDigits B bs ≤ ofDigits B as) :
    ofDigits B (subLimbs B as bs 0) = ofDigits B as - ofDigits B bs := by
  obtain ⟨limbs, out, small, value⟩ :=
    subLimbs_spec (zero_lt_of_lt large) limbsA limbsB (zero_le 1)
  have bound := ofDigits_lt_base_pow_length large limbs
  rw [length_subLimbs] at bound
  -- a borrow at the end would make the difference larger than all its limbs can hold
  have none : out = 0 := by
    by_contra some
    rw [(by omega : out = 1)] at value
    omega
  rw [none] at value
  omega

/-! ## Multiplication -/

/-- Add `a` times the number `bs` to the limbs `out`, with a carry. The carry of the last
product is added to one more limb; what does not fit is lost. -/
def mulRow (B a : ℕ) : List ℕ → List ℕ → ℕ → List ℕ
  | _, [], _ => []
  | [], o :: os, carry => (o + carry) % B :: os
  | b :: bs, o :: os, carry =>
    let prod := a * b + o + carry
    prod % B :: mulRow B a bs os (prod / B)

/-- Add the product of two numbers to the limbs `out`, one row for each limb of the first. -/
def mulLimbs (B : ℕ) : List ℕ → List ℕ → List ℕ → List ℕ
  | [], _, out => out
  | a :: as, bs, out =>
    match mulRow B a bs out 0 with
    | [] => []
    | o :: os => o :: mulLimbs B as bs os

variable {carry : ℕ} {low : List ℕ}

theorem mulRow_spec (smallA : a < B) (same : low.length = bs.length)
    (limbsB : AreLimbs B bs) (limbs : AreLimbs B low) (smallC : carry < B) (m : ℕ) :
    ∃ row, row.length = bs.length + 1 ∧ AreLimbs B row ∧
      mulRow B a bs (low ++ replicate (m + 1) 0) carry = row ++ replicate m 0 ∧
      ofDigits B row = ofDigits B low + a * ofDigits B bs + carry := by
  induction bs generalizing low carry with
  | nil =>
    rw [length_eq_zero_iff.mp same]
    refine ⟨[carry], rfl, by simpa [AreLimbs] using smallC, ?_, by simp⟩
    rw [nil_append, replicate_succ, mulRow, zero_add, mod_eq_of_lt smallC, singleton_append]
  | cons b bs ih =>
    cases low with
    | nil => cases same
    | cons o low =>
      have positive := zero_lt_of_lt smallA
      -- the widened product does not exceed two limbs
      have fits : (a * b + o + carry) / B < B := by
        have ab : a * b ≤ (B - 1) * (B - 1) :=
          Nat.mul_le_mul (by omega) (by have := limbsB.head; omega)
        have := limbs.head
        rw [div_lt_iff_lt_mul positive]
        have square : (B - 1) * (B - 1) + 2 * (B - 1) + 1 = B * B := by
          obtain ⟨n, rfl⟩ : ∃ n, B = n + 1 := ⟨B - 1, by omega⟩
          rw [Nat.add_sub_cancel]
          ring
        omega
      obtain ⟨row, length, below, shape, value⟩ :=
        ih (succ.inj same) limbsB.tail limbs.tail fits
      refine ⟨(a * b + o + carry) % B :: row, by simp [length],
        AreLimbs.cons (mod_lt _ positive) below, ?_, ?_⟩
      · rw [cons_append, mulRow, shape, cons_append]
      rw [ofDigits_cons, value]
      have split := mod_add_div (a * b + o + carry) B
      calc (a * b + o + carry) % B +
            B * (ofDigits B low + a * ofDigits B bs + (a * b + o + carry) / B)
          = ((a * b + o + carry) % B + B * ((a * b + o + carry) / B)) +
            B * (ofDigits B low + a * ofDigits B bs) := by ring
        _ = o + B * ofDigits B low + a * (b + B * ofDigits B bs) + carry := by
          rw [split]
          ring

theorem mulLimbs_spec (limbsA : AreLimbs B as) (limbsB : AreLimbs B bs)
    (limbs : AreLimbs B low) (same : low.length = bs.length) :
    AreLimbs B (mulLimbs B as bs (low ++ replicate as.length 0)) ∧
      ofDigits B (mulLimbs B as bs (low ++ replicate as.length 0)) =
        ofDigits B low + ofDigits B as * ofDigits B bs := by
  induction as generalizing low with
  | nil => simpa [mulLimbs] using limbs
  | cons a as ih =>
    have positive := zero_lt_of_lt limbsA.head
    obtain ⟨row, length, below, shape, value⟩ :=
      mulRow_spec limbsA.head same limbsB limbs positive as.length
    obtain ⟨o, rest, rfl⟩ : ∃ o rest, row = o :: rest :=
      exists_cons_of_ne_nil (by rintro rfl; cases length)
    obtain ⟨restLimbs, restValue⟩ := ih limbsA.tail below.tail (by simpa using length)
    rw [cons_append] at shape
    rw [ofDigits_cons] at value
    simp only [length_cons, mulLimbs, shape]
    refine ⟨AreLimbs.cons below.head restLimbs, ?_⟩
    rw [ofDigits_cons, restValue]
    calc o + B * (ofDigits B rest + ofDigits B as * ofDigits B bs)
        = (o + B * ofDigits B rest) + B * (ofDigits B as * ofDigits B bs) := by ring
      _ = ofDigits B low + (a + B * ofDigits B as) * ofDigits B bs := by
        rw [value]
        ring

theorem areLimbs_mulRow (pos : 0 < B) (a : ℕ) (bs : List ℕ) {out : List ℕ}
    (limbs : AreLimbs B out) (carry : ℕ) : AreLimbs B (mulRow B a bs out carry) := by
  fun_induction mulRow B a bs out carry with
  | case1 => exact limbs
  | case2 carry o os => exact AreLimbs.cons (mod_lt _ pos) limbs.tail
  | case3 b bs o os carry prod ih =>
    exact AreLimbs.cons (mod_lt _ pos) (ih limbs.tail)

theorem areLimbs_mulLimbs (pos : 0 < B) (as bs : List ℕ) {out : List ℕ}
    (limbs : AreLimbs B out) : AreLimbs B (mulLimbs B as bs out) := by
  fun_induction mulLimbs B as bs out with
  | case1 => exact limbs
  | case2 => simp [AreLimbs]
  | case3 a as bs out o os row ih =>
    have rowLimbs := areLimbs_mulRow pos a bs limbs 0
    rw [row] at rowLimbs
    exact AreLimbs.cons rowLimbs.head (ih rowLimbs.tail)

theorem length_mulRow (a : ℕ) (bs out : List ℕ) (carry : ℕ) :
    (mulRow B a bs out carry).length = out.length := by
  fun_induction mulRow B a bs out carry with
  | case1 => rfl
  | case2 => rfl
  | case3 b bs o os carry prod ih => simp [ih]

theorem length_mulLimbs (as bs out : List ℕ) : (mulLimbs B as bs out).length = out.length := by
  fun_induction mulLimbs B as bs out with
  | case1 => rfl
  | case2 a as bs out empty =>
    have length := length_mulRow (B := B) a bs out 0
    rw [empty] at length
    exact length
  | case3 a as bs out o os row ih =>
    have length := length_mulRow (B := B) a bs out 0
    rw [row] at length
    simpa [ih] using length

/-! ## Bits -/

section Bits

variable {w : ℕ}

/-- Shift left by less than a limb. The bits that leave a limb enter the next one. -/
def shiftLimbs (w s : ℕ) : List ℕ → ℕ → List ℕ
  | [], carry => [carry]
  | a :: as, carry => (a <<< s % 2 ^ w ||| carry) :: shiftLimbs w s as (a >>> (w - s))

/-- The low part of a shifted limb leaves its `s` lowest bits free. -/
theorem shift_or_carry {s a : ℕ} (inside : s ≤ w) (bits : carry < 2 ^ s) :
    a <<< s % 2 ^ w ||| carry = a * 2 ^ s % 2 ^ w + carry := by
  have whole : 2 ^ w = 2 ^ s * 2 ^ (w - s) := (pow_mul_pow_sub 2 inside).symm
  have multiple : a <<< s % 2 ^ w = (a % 2 ^ (w - s)) <<< s := by
    rw [shiftLeft_eq, shiftLeft_eq, whole, mul_comm a, mul_mod_mul_left, mul_comm]
  rw [multiple, ← shiftLeft_add_eq_or_of_lt bits, ← multiple, shiftLeft_eq]

theorem shiftLimbs_spec {s : ℕ} (inside : s ≤ w) (limbs : AreLimbs (2 ^ w) as)
    (bits : carry < 2 ^ s) : AreLimbs (2 ^ w) (shiftLimbs w s as carry) ∧
      ofDigits (2 ^ w) (shiftLimbs w s as carry) = ofDigits (2 ^ w) as * 2 ^ s + carry := by
  induction as generalizing carry with
  | nil =>
    have : 2 ^ s ≤ 2 ^ w := Nat.pow_le_pow_right (by decide) inside
    exact ⟨by simp [shiftLimbs, AreLimbs]; omega, by simp [shiftLimbs]⟩
  | cons a as ih =>
    have whole : 2 ^ w = 2 ^ (w - s) * 2 ^ s := (pow_sub_mul_pow 2 inside).symm
    have out : a >>> (w - s) < 2 ^ s := by
      rw [shiftRight_eq_div_pow, Nat.div_lt_iff_lt_mul (Nat.two_pow_pos _), mul_comm, ← whole]
      exact limbs.head
    obtain ⟨below, value⟩ := ih limbs.tail out
    -- what is cut off the limb is what the next one receives
    have cut : a * 2 ^ s % 2 ^ w + 2 ^ w * (a >>> (w - s)) = a * 2 ^ s := by
      rw [shiftRight_eq_div_pow, ← Nat.mul_div_mul_right a (2 ^ (w - s)) (Nat.two_pow_pos s),
        ← whole]
      exact mod_add_div _ _
    have low : a * 2 ^ s % 2 ^ w + carry < 2 ^ w := by
      have multiple : a * 2 ^ s % 2 ^ w = a % 2 ^ (w - s) * 2 ^ s := by
        rw [whole, mul_mod_mul_right]
      have bound : (a % 2 ^ (w - s) + 1) * 2 ^ s ≤ 2 ^ (w - s) * 2 ^ s :=
        Nat.mul_le_mul_right _ (mod_lt _ (Nat.two_pow_pos _))
      rw [add_mul] at bound
      omega
    rw [shiftLimbs, shift_or_carry inside bits]
    refine ⟨AreLimbs.cons low below, ?_⟩
    rw [ofDigits_cons, value]
    calc a * 2 ^ s % 2 ^ w + carry + 2 ^ w * (ofDigits (2 ^ w) as * 2 ^ s + a >>> (w - s))
        = (a * 2 ^ s % 2 ^ w + 2 ^ w * (a >>> (w - s))) +
            2 ^ w * ofDigits (2 ^ w) as * 2 ^ s + carry := by ring
      _ = (a + 2 ^ w * ofDigits (2 ^ w) as) * 2 ^ s + carry := by
        rw [cut]
        ring

/-- The number of bits, by the highest limb that is not zero. -/
def bitLength (w : ℕ) : List ℕ → ℕ
  | [] => 0
  | a :: as => if bitLength w as = 0 then size a else w + bitLength w as

theorem bitLength_eq (below : AreLimbs (2 ^ w) limbs) :
    bitLength w limbs = size (ofDigits (2 ^ w) limbs) := by
  induction limbs with
  | nil => simp [bitLength]
  | cons a as ih =>
    rw [bitLength, ih below.tail, ofDigits_cons]
    split
    · rename_i zero
      rw [size_eq_zero.mp zero, mul_zero, add_zero]
    rename_i pos
    have small := below.head
    apply le_antisymm
    · have top : size (ofDigits (2 ^ w) as) - 1 < size (ofDigits (2 ^ w) as) := by
        omega
      have least := mul_le_mul_left (2 ^ w) (lt_size.mp top)
      rw [← pow_add] at least
      have : w + (size (ofDigits (2 ^ w) as) - 1) <
          size (a + 2 ^ w * ofDigits (2 ^ w) as) :=
        lt_size.mpr (by omega)
      omega
    · rw [size_le, pow_add]
      have most := mul_le_mul_left (2 ^ w) (lt_size_self (ofDigits (2 ^ w) as))
      rw [mul_succ] at most
      omega

theorem testBit_ofDigits (below : AreLimbs (2 ^ w) limbs) (pos : 0 < w)
    (i : ℕ) : (ofDigits (2 ^ w) limbs).testBit i = (limbs.getD (i / w) 0).testBit (i % w) := by
  induction limbs generalizing i with
  | nil => simp
  | cons a as ih =>
    rw [ofDigits_cons, add_comm, testBit_two_pow_mul_add _ below.head]
    split
    · rename_i first
      rw [div_eq_of_lt first, mod_eq_of_lt first, getD_cons_zero]
    rename_i later
    have quotient : i / w = (i - w) / w + 1 := div_eq_sub_div pos (by omega)
    have remainder : i % w = (i - w) % w := mod_eq_sub_mod (by omega)
    rw [ih below.tail, quotient, remainder, getD_cons_succ]

end Bits

end Limbs

end SmartOs.Math
