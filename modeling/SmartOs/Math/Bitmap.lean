/-
# Bitmaps

A list of `w`-bit words read as one long sequence of bits, bit `i` standing in word
`i / w` at place `i % w`. Setting and clearing a bit change that bit alone, and the
number of set bits moves by one with each change.
-/

import Mathlib.Data.Finset.Card
import Mathlib.Algebra.GroupWithZero.Nat
import Mathlib.Algebra.Order.Group.Nat

namespace SmartOs.Math

open Finset Nat

variable {w : ℕ}

/-- Bit `i` of the bitmap; bits past the last word are clear. -/
def testBit (words : List (BitVec w)) (i : ℕ) : Bool :=
  (words[i / w]?.getD 0#w).getLsbD (i % w)

/-- Set bit `i`, if there is a word for it. -/
def setBit (words : List (BitVec w)) (i : ℕ) : List (BitVec w) :=
  words.modify (i / w) (· ||| 1#w <<< (i % w))

def clearBit (words : List (BitVec w)) (i : ℕ) : List (BitVec w) :=
  words.modify (i / w) (· &&& ~~~(1#w <<< (i % w)))

def setBits (words : List (BitVec w)) : Finset ℕ :=
  {i ∈ range (w * words.length) | testBit words i}

variable (words : List (BitVec w))

@[simp] theorem length_setBit (i : ℕ) : (setBit words i).length = words.length := by
  simp [setBit]

@[simp] theorem length_clearBit (i : ℕ) : (clearBit words i).length = words.length := by
  simp [clearBit]

theorem testBit_replicate_zero (count i : ℕ) : testBit (List.replicate count 0#w) i = false := by
  unfold testBit
  rw [List.getElem?_replicate]
  split_ifs <;> simp

theorem lt_of_testBit {words : List (BitVec w)} {i : ℕ} (set : testBit words i) :
    i / w < words.length := by
  by_contra outside
  rw [testBit, List.getElem?_eq_none (not_lt.mp outside)] at set
  simp at set

theorem getLsbD_mask {k j : ℕ} (small : k < w) : (1#w <<< k).getLsbD j = decide (k = j) := by
  rw [BitVec.getLsbD_shiftLeft, BitVec.getLsbD_one, Bool.eq_iff_iff]
  simp only [Bool.and_eq_true, Bool.not_eq_true', decide_eq_true_eq, decide_eq_false_iff_not]
  omega

section Cons

variable (word : BitVec w) (words : List (BitVec w)) {i : ℕ}

theorem testBit_cons_lt (first : i < w) : testBit (word :: words) i = word.getLsbD i := by
  rw [testBit, div_eq_of_lt first, mod_eq_of_lt first]
  rfl

theorem testBit_cons_add [NeZero w] : testBit (word :: words) (i + w) = testBit words i := by
  rw [testBit, add_div_right i (pos_of_neZero w), add_mod_right]
  rfl

theorem clearBit_cons_lt (first : i < w) :
    clearBit (word :: words) i = (word &&& ~~~(1#w <<< i)) :: words := by
  rw [clearBit, div_eq_of_lt first, mod_eq_of_lt first]
  rfl

theorem clearBit_cons_add [NeZero w] :
    clearBit (word :: words) (i + w) = word :: clearBit words i := by
  rw [clearBit, add_div_right i (pos_of_neZero w), add_mod_right]
  rfl

end Cons

private theorem place_eq_iff {i j : ℕ} (word : i / w = j / w) : i % w = j % w ↔ i = j := by
  constructor
  · intro place
    rw [← div_add_mod i w, ← div_add_mod j w, word, place]
  · exact congrArg (· % w)

section Updates

variable [NeZero w] {words : List (BitVec w)} {i : ℕ}

theorem mem_setBits : i ∈ setBits words ↔ testBit words i := by
  simp only [setBits, mem_filter, mem_range, and_iff_right_iff_imp]
  intro set
  rw [mul_comm]
  exact (div_lt_iff_lt_mul (pos_of_neZero w)).mp (lt_of_testBit set)

theorem testBit_setBit (inside : i / w < words.length) (j : ℕ) :
    testBit (setBit words i) j = (decide (i = j) || testBit words j) := by
  have place : i % w < w := mod_lt _ (pos_of_neZero w)
  unfold testBit setBit
  rw [List.getElem?_modify]
  -- in the same word the mask decides, other words are not touched
  by_cases word : i / w = j / w
  · rw [← word, List.getElem?_eq_getElem inside]
    simp only [Option.map_eq_map, Option.map_some, Option.getD_some, if_true, BitVec.getLsbD_or,
      getLsbD_mask place]
    rw [Bool.or_comm, decide_eq_decide.mpr (place_eq_iff word)]
  · have other : i ≠ j := fun same => word (congrArg (· / w) same)
    simp [word, other]

theorem testBit_clearBit (j : ℕ) :
    testBit (clearBit words i) j = (decide (i ≠ j) && testBit words j) := by
  have place : i % w < w := mod_lt _ (pos_of_neZero w)
  unfold testBit clearBit
  rw [List.getElem?_modify]
  by_cases word : i / w = j / w
  · rw [← word]
    cases words[i / w]? with
    | none => simp
    | some bits =>
      simp only [Option.map_eq_map, Option.map_some, Option.getD_some, if_true, BitVec.getLsbD_and,
        BitVec.getLsbD_not, getLsbD_mask place]
      have small : j % w < w := mod_lt _ (pos_of_neZero w)
      simp [small, place_eq_iff word, Bool.and_comm]
  · have other : i ≠ j := fun same => word (congrArg (· / w) same)
    simp [word, other]

theorem setBits_setBit (inside : i / w < words.length) :
    setBits (setBit words i) = insert i (setBits words) := by
  ext j
  simp only [mem_setBits, testBit_setBit inside, mem_insert, Bool.or_eq_true, decide_eq_true_eq]
  rw [eq_comm]

theorem setBits_clearBit : setBits (clearBit words i) = (setBits words).erase i := by
  ext j
  simp only [mem_setBits, testBit_clearBit, mem_erase, Bool.and_eq_true, decide_eq_true_eq]
  rw [ne_comm]

theorem card_setBits_setBit (inside : i / w < words.length) (clear : testBit words i = false) :
    (setBits (setBit words i)).card = (setBits words).card + 1 := by
  rw [setBits_setBit inside]
  simp [mem_setBits, clear]

theorem card_setBits_clearBit (set : testBit words i) :
    (setBits (clearBit words i)).card = (setBits words).card - 1 := by
  rw [setBits_clearBit, card_erase_of_mem (mem_setBits.mpr set)]

end Updates

/-! ## Ranges -/

def setRange (words : List (BitVec w)) (start count : ℕ) : List (BitVec w) :=
  (List.range' start count).foldl setBit words

def clearRange (words : List (BitVec w)) (start count : ℕ) : List (BitVec w) :=
  (List.range' start count).foldl clearBit words

@[simp] theorem length_setRange (start count : ℕ) :
    (setRange words start count).length = words.length := by
  induction count generalizing words start with
  | zero => rfl
  | succ count ih =>
    exact (ih (setBit words start) (start + 1)).trans (length_setBit words start)

@[simp] theorem length_clearRange (start count : ℕ) :
    (clearRange words start count).length = words.length := by
  induction count generalizing words start with
  | zero => rfl
  | succ count ih =>
    exact (ih (clearBit words start) (start + 1)).trans (length_clearBit words start)

section Ranges

variable [NeZero w] {words : List (BitVec w)} {start count : ℕ}

theorem testBit_setRange (inside : start + count ≤ words.length * w) (j : ℕ) :
    testBit (setRange words start count) j ↔ start ≤ j ∧ j < start + count ∨ testBit words j := by
  induction count generalizing words start with
  | zero =>
    have none : ¬(start ≤ j ∧ j < start + 0) := by omega
    exact (or_iff_right none).symm
  | succ count ih =>
    have first : start / w < words.length := (div_lt_iff_lt_mul (pos_of_neZero w)).mpr
      (by omega)
    have rest := @ih (setBit words start) (start + 1) (by rw [length_setBit]; omega)
    rw [setRange] at rest
    rw [setRange, List.range'_succ, List.foldl_cons, rest, testBit_setBit first, Bool.or_eq_true,
      decide_eq_true_eq, ← or_assoc]
    refine or_congr_left ?_
    omega

theorem testBit_clearRange (j : ℕ) : testBit (clearRange words start count) j ↔
    ¬(start ≤ j ∧ j < start + count) ∧ testBit words j := by
  induction count generalizing words start with
  | zero =>
    have all : ¬(start ≤ j ∧ j < start + 0) := by omega
    exact (and_iff_right all).symm
  | succ count ih =>
    have rest := @ih (clearBit words start) (start + 1)
    rw [clearRange] at rest
    rw [clearRange, List.range'_succ, List.foldl_cons, rest, testBit_clearBit, Bool.and_eq_true,
      decide_eq_true_eq, ← and_assoc]
    refine and_congr_left fun _ => ?_
    omega

end Ranges

end SmartOs.Math
