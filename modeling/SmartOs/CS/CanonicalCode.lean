/-
# Canonical prefix codes

A canonical code is determined by the lengths of its codewords. The codewords of one length
are consecutive numbers in the order of the symbols, and those of each length start right
after all shorter ones. Length zero stands for a symbol without a codeword.

A set of lengths is legal if it satisfies Kraft's inequality. Then the codewords fit into
their lengths, and no prefix of a codeword is the codeword of another symbol, which is what a
decoder that reads bit by bit relies on.
-/

import Mathlib.Algebra.Order.Group.Nat
import Mathlib.Data.List.Count
import Mathlib.Data.List.Perm.Basic
import SmartOs.Math.Bits

namespace SmartOs.CS.CanonicalCode

open List

variable (lengths : List ℕ)

/-- The number of codewords of length `l`. -/
def count (l : ℕ) : ℕ := if l = 0 then 0 else lengths.count l

/-- The first codeword of length `l`, as a number. -/
def firstCode : ℕ → ℕ
  | 0 => 0
  | l + 1 => 2 * (firstCode l + count lengths l)

/-- The length of the codeword of a symbol. -/
def lengthOf (s : ℕ) : ℕ := lengths.getD s 0

/-- The number of earlier symbols with a codeword of the same length. -/
def rank (s : ℕ) : ℕ := (lengths.take s).count (lengthOf lengths s)

/-- The codeword of a symbol, as a number. -/
def code (s : ℕ) : ℕ := firstCode lengths (lengthOf lengths s) + rank lengths s

/-- The codeword of a symbol. -/
def codeword (s : ℕ) : List Bool := Math.msbBits (lengthOf lengths s) (code lengths s)

/-- What the codewords of length at most `m` take of the words of length `m`. -/
def kraftSum (m : ℕ) : ℕ := (lengths.map fun l => if l = 0 ∨ m < l then 0 else 2 ^ (m - l)).sum

/-- The lengths are at most `m` and satisfy Kraft's inequality. -/
structure Legal (m : ℕ) : Prop where
  bounded : ∀ l ∈ lengths, l ≤ m
  kraft : kraftSum lengths m ≤ 2 ^ m

instance (m : ℕ) : Decidable (Legal lengths m) :=
  decidable_of_iff (_ ∧ _) ⟨fun ⟨bounded, kraft⟩ => ⟨bounded, kraft⟩,
    fun legal => ⟨legal.bounded, legal.kraft⟩⟩

variable {lengths}

/-! ## Codewords of one length -/

theorem count_cons (k l : ℕ) : count (k :: lengths) l =
    count lengths l + if 0 < k ∧ k = l then 1 else 0 := by
  simp only [count]
  by_cases zero : l = 0
  · simp [zero]
    omega
  · by_cases same : k = l
    · simp [zero, same]
    · simp [same]

variable {s : ℕ}

theorem lengthOf_mem (coded : lengthOf lengths s ≠ 0) : lengthOf lengths s ∈ lengths := by
  rw [lengthOf, getD_eq_getElem?_getD] at coded ⊢
  cases here : lengths[s]? with
  | none => simp [here] at coded
  | some l => exact mem_of_getElem? here

theorem rank_lt_count (coded : lengthOf lengths s ≠ 0) :
    rank lengths s < count lengths (lengthOf lengths s) := by
  have inside : s < lengths.length := by
    by_contra outside
    exact coded (getD_eq_default _ _ (not_lt.mp outside))
  have here : lengths[s] = lengthOf lengths s := (getD_eq_getElem _ _ inside).symm
  have split : lengths.count (lengthOf lengths s) =
      rank lengths s + (lengths.drop s).count (lengthOf lengths s) := by
    rw [rank, ← count_append, take_append_drop]
  rw [drop_eq_getElem_cons inside, here, count_cons_self] at split
  rw [count, if_neg coded]
  omega

/-! ## Codewords of different lengths -/

/-- The codewords up to length `k` take a part of the longer words that ends before the first
codeword of any greater length. -/
theorem firstCode_add_count_mul_le (k j : ℕ) :
    (firstCode lengths k + count lengths k) * 2 ^ (j + 1) ≤ firstCode lengths (k + 1 + j) := by
  induction j with
  | zero => rw [Nat.pow_one, firstCode, mul_comm]
  | succ j ih =>
    calc (firstCode lengths k + count lengths k) * 2 ^ (j + 1 + 1)
        = 2 * ((firstCode lengths k + count lengths k) * 2 ^ (j + 1)) := by
          rw [pow_succ 2 (j + 1)]
          ac_rfl
      _ ≤ 2 * (firstCode lengths (k + 1 + j) + count lengths (k + 1 + j)) := by omega
      _ = firstCode lengths (k + 1 + (j + 1)) := rfl

/-- A codeword cut to a smaller length lies behind all codewords of that length. -/
theorem firstCode_add_count_le_div {k : ℕ} (shorter : k < lengthOf lengths s) :
    firstCode lengths k + count lengths k ≤ code lengths s / 2 ^ (lengthOf lengths s - k) := by
  obtain ⟨j, length⟩ : ∃ j, lengthOf lengths s = k + 1 + j :=
    ⟨lengthOf lengths s - (k + 1), by omega⟩
  rw [Nat.le_div_iff_mul_le (Nat.two_pow_pos _), code, length]
  have bound := @firstCode_add_count_mul_le lengths k j
  rw [show k + 1 + j - k = j + 1 by omega]
  omega

/-! ## Kraft's inequality -/

theorem kraftSum_succ (m : ℕ) :
    kraftSum lengths (m + 1) = 2 * kraftSum lengths m + count lengths (m + 1) := by
  rw [count, if_neg (Nat.succ_ne_zero m)]
  induction lengths with
  | nil => rfl
  | cons l lengths ih =>
    simp only [kraftSum, List.map_cons, List.sum_cons, List.count_cons] at ih ⊢
    rw [ih]
    by_cases none : l = 0
    · simp [none]
    rcases lt_trichotomy l (m + 1) with less | rfl | more
    · have power : 2 ^ (m + 1 - l) = 2 * 2 ^ (m - l) := by
        rw [show m + 1 - l = m - l + 1 by omega, pow_succ, mul_comm]
      simp only [none, false_or, show ¬ m + 1 < l by omega, show ¬ m < l by omega, if_false,
        beq_iff_eq, show l ≠ m + 1 by omega]
      omega
    · simp
      omega
    · simp [show m + 1 < l from more, show m < l by omega, show l ≠ m + 1 by omega]

theorem firstCode_add_count (m : ℕ) :
    firstCode lengths m + count lengths m = kraftSum lengths m := by
  induction m with
  | zero => simp [firstCode, count, kraftSum, Nat.eq_zero_or_pos]
  | succ m ih => rw [firstCode, ih, kraftSum_succ]

variable {m : ℕ}
variable {l : ℕ}

theorem Legal.firstCode_add_count_le (legal : Legal lengths m) (bounded : l ≤ m) :
    firstCode lengths l + count lengths l ≤ 2 ^ l := by
  rcases Nat.lt_or_eq_of_le bounded with less | rfl
  · obtain ⟨j, rfl⟩ : ∃ j, m = l + 1 + j := ⟨m - (l + 1), by omega⟩
    have scaled := @firstCode_add_count_mul_le lengths l j
    have total := (@firstCode_add_count lengths (l + 1 + j)).trans_le legal.kraft
    have power : 2 ^ (l + 1 + j) = 2 ^ l * 2 ^ (j + 1) := by
      rw [← pow_add]
      congr 1
      omega
    exact Nat.le_of_mul_le_mul_right (by omega) (Nat.two_pow_pos (j + 1))
  · exact (firstCode_add_count l).trans_le legal.kraft

theorem Legal.lengthOf_le (legal : Legal lengths m) (s : ℕ) : lengthOf lengths s ≤ m := by
  by_cases coded : lengthOf lengths s = 0
  · omega
  · exact legal.bounded _ (lengthOf_mem coded)

theorem Legal.code_lt (legal : Legal lengths m) (coded : lengthOf lengths s ≠ 0) :
    code lengths s < 2 ^ lengthOf lengths s := by
  have fits := legal.firstCode_add_count_le (legal.lengthOf_le s)
  have less := rank_lt_count coded
  rw [code]
  omega

/-! ## The symbols in the order of their codewords -/

/-- Pairs of a length and a symbol in the order of their codewords. -/
def Before (a b : ℕ × ℕ) : Prop := a.1 < b.1 ∨ a.1 = b.1 ∧ a.2 < b.2
  deriving Decidable

/-- The symbols that have a codeword, with its length and in the order of the codewords. -/
structure IsTable (lengths : List ℕ) (table : List (ℕ × ℕ)) : Prop where
  sorted : table.Pairwise Before
  perm : table.Perm (lengths.zipIdx.filter fun entry => 0 < entry.1)

/-- In a sorted table an entry stands behind as many entries as are before it. -/
theorem getElem?_countP_of_sorted {table : List (ℕ × ℕ)} (sorted : table.Pairwise Before)
    {entry : ℕ × ℕ} (mem : entry ∈ table) : table[table.countP (Before · entry)]? = some entry := by
  induction table with
  | nil => cases mem
  | cons first rest ih =>
    obtain ⟨least, sorted⟩ := pairwise_cons.mp sorted
    by_cases here : entry = first
    · subst here
      have none : rest.countP (Before · entry) = 0 := by
        rw [countP_eq_zero]
        intro other later
        have after := least other later
        rw [decide_eq_true_eq]
        rw [Before] at after ⊢
        omega
      rw [countP_cons_of_neg (by simp [Before]), none]
      rfl
    · have later : entry ∈ rest := (mem_cons.mp mem).resolve_left here
      rw [countP_cons_of_pos (by simpa using least entry later)]
      exact ih sorted later

theorem countP_zipIdx (l s start : ℕ) :
    (lengths.zipIdx start).countP (fun entry => entry.1 = l ∧ entry.2 < start + s) =
      (lengths.take s).count l := by
  induction lengths generalizing start s with
  | nil => simp
  | cons k lengths ih =>
    cases s with
    | zero =>
      rw [take_zero, count_nil, countP_eq_zero]
      intro entry mem
      have bound := le_snd_of_mem_zipIdx mem
      rw [decide_eq_true_eq]
      omega
    | succ s =>
      rw [List.zipIdx_cons, List.countP_cons, List.take_succ_cons, List.count_cons,
        ← ih s (start + 1), show start + 1 + s = start + (s + 1) by omega]
      simp

theorem countP_or_of_disjoint {α : Type} (l : List α) {p q r : α → Bool}
    (either : ∀ x, r x = (p x || q x)) (disjoint : ∀ x, (p x && q x) = false) :
    l.countP r = l.countP p + l.countP q := by
  induction l with
  | nil => rfl
  | cons x l ih =>
    cases here : p x <;> cases there : q x <;> simp_all <;> omega

section Tables

variable {table : List (ℕ × ℕ)}

section

variable (isTable : IsTable lengths table)
include isTable

theorem IsTable.countP_eq (p : ℕ × ℕ → Bool) :
    table.countP p = lengths.zipIdx.countP fun entry => p entry && decide (0 < entry.1) := by
  rw [isTable.perm.countP_eq, countP_filter]

theorem IsTable.mem_iff : (l, s) ∈ table ↔ 0 < l ∧ lengths[s]? = some l := by
  rw [isTable.perm.mem_iff, mem_filter, mem_zipIdx_iff_getElem?, decide_eq_true_eq]
  exact and_comm

theorem IsTable.countP_rank (pos : 0 < l) :
    table.countP (fun entry => entry.1 = l ∧ entry.2 < s) = (lengths.take s).count l := by
  rw [isTable.countP_eq, ← countP_zipIdx l s 0]
  apply countP_congr
  simp only [Bool.and_eq_true, decide_eq_true_eq]
  omega

theorem IsTable.countP_before (pos : 0 < l) : table.countP (Before · (l, s)) =
      table.countP (fun entry => entry.1 < l) + (lengths.take s).count l := by
  rw [← isTable.countP_rank pos]
  apply countP_or_of_disjoint
  · intro entry
    exact Bool.decide_or _ _
  · intro entry
    rw [← Bool.decide_and, decide_eq_false_iff_not]
    omega

theorem IsTable.getElem? (coded : lengthOf lengths s ≠ 0) :
    table[table.countP (fun entry => entry.1 < lengthOf lengths s) + rank lengths s]? =
      some (lengthOf lengths s, s) := by
  have positive := Nat.pos_of_ne_zero coded
  rw [rank, ← isTable.countP_before positive]
  apply getElem?_countP_of_sorted isTable.sorted
  rw [isTable.mem_iff]
  refine ⟨positive, ?_⟩
  rw [lengthOf, getD_eq_getElem?_getD] at coded ⊢
  cases here : lengths[s]? with
  | none => simp [here] at coded
  | some l => rfl

theorem IsTable.countP_length (pos : 0 < l) :
    table.countP (fun entry => entry.1 = l) = count lengths l := by
  rw [isTable.countP_eq, count, if_neg (by omega), ← zipIdx_map_fst 0 lengths,
    count_eq_countP, countP_map, zipIdx_map_fst]
  apply countP_congr
  simp only [Bool.and_eq_true, decide_eq_true_eq, Function.comp_apply, beq_iff_eq]
  omega

theorem IsTable.countP_succ (pos : 0 < l) : table.countP (fun entry => entry.1 < l + 1) =
      table.countP (fun entry => entry.1 < l) + count lengths l := by
  rw [← isTable.countP_length pos]
  apply countP_or_of_disjoint
  · intro entry
    rw [← Bool.decide_or, decide_eq_decide]
    omega
  · intro entry
    rw [← Bool.decide_and, decide_eq_false_iff_not]
    omega

end

def maxLength (lengths : List ℕ) : ℕ := lengths.foldr max 0

theorem le_maxLength (mem : l ∈ lengths) : l ≤ maxLength lengths := by
  induction lengths with
  | nil => cases mem
  | cons k lengths ih =>
    rcases mem_cons.mp mem with rfl | later
    · exact le_max_left _ _
    · exact (ih later).trans (le_max_right _ _)

theorem maxLength_mem (coded : maxLength lengths ≠ 0) : maxLength lengths ∈ lengths := by
  induction lengths with
  | nil => exact absurd rfl coded
  | cons k lengths ih =>
    rw [maxLength, foldr_cons] at coded ⊢
    rcases Nat.le_total k (lengths.foldr max 0) with less | more
    · rw [max_eq_right less] at coded ⊢
      exact mem_cons_of_mem _ (ih coded)
    · rw [max_eq_left more]
      exact mem_cons_self

theorem lengthOf_le_maxLength (s : ℕ) : lengthOf lengths s ≤ maxLength lengths := by
  by_cases coded : lengthOf lengths s = 0
  · omega
  · exact le_maxLength (lengthOf_mem coded)

/-- The last symbol of the table has the greatest length. -/
theorem IsTable.getLast? (isTable : IsTable lengths table) :
    (table.getLast?.map (·.1)).getD 0 = maxLength lengths := by
  rcases eq_nil_or_concat table with rfl | ⟨front, last, rfl⟩
  · have empty : maxLength lengths = 0 := by
      by_contra coded
      obtain ⟨s, here⟩ := mem_iff_getElem?.mp (maxLength_mem coded)
      have member := isTable.mem_iff.mpr ⟨Nat.pos_of_ne_zero coded, here⟩
      cases member
    rw [empty]
    rfl
  · have member : last ∈ front.concat last := by simp
    obtain ⟨pos, here⟩ := (isTable.mem_iff (l := last.1) (s := last.2)).mp member
    have below : last.1 ≤ maxLength lengths := le_maxLength (mem_of_getElem? here)
    have above : maxLength lengths ≤ last.1 := by
      obtain ⟨s, greatest⟩ := mem_iff_getElem?.mp
        (@maxLength_mem lengths (by omega))
      have member := isTable.mem_iff.mpr ⟨by omega, greatest⟩
      have sorted := isTable.sorted
      rw [concat_eq_append] at member sorted
      rcases mem_append.mp member with earlier | here
      · have before := (pairwise_append.mp sorted).2.2 _ earlier last (by simp)
        rw [Before] at before
        omega
      · rw [← mem_singleton.mp here]
    simp only [concat_eq_append, getLast?_append, getLast?_singleton,
      Option.some_or, Option.map_some, Option.getD_some]
    omega

end Tables
end SmartOs.CS.CanonicalCode
