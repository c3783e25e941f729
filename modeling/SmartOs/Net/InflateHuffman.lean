/-
# Decoding canonical codes

What the bit reader and `decode_symbol` do to the bits that are left. The tables of
`build_huff` hold the first code and the offset of every length up to the greatest one in use,
but the offset behind the greatest length stays zero. `decode_symbol` takes the number of
codes of a length from the difference of two offsets, so it finds no code of the greatest
length, unless that length is 15, where the number of symbols is used instead.
-/

import Mathlib.Data.List.Induction
import SmartOs.CS.CanonicalCode
import SmartOs.Net.Inflate

namespace SmartOs.Net.Inflate

open CS Math BitReader CanonicalCode Nat
open List hiding count

variable {entry : ℕ × ℕ} {i l : ℕ}

/-! ## The bits of a reader -/

/-- The reader still has the given bits to read. -/
def Holds (br : BitReader) (bits : List Bool) : Prop :=
  br.buf < 2 ^ br.bits ∧ bits = lsbBits br.bits br.buf ++ bytesBits (br.src.drop br.pos)

theorem holds_new (data : List UInt8) : Holds (.new data) (bytesBits data) :=
  ⟨one_pos, rfl⟩

variable {bits : List Bool} {br : BitReader} {n : ℕ}

theorem Holds.length (holds : Holds br bits) :
    bits.length = br.bits + 8 * (br.src.length - br.pos) := by
  rw [holds.2]
  simp

theorem Holds.push (holds : Holds br bits) {byte : UInt8} (found : br.src[br.pos]? = some byte) :
    Holds { br with
      buf := br.buf ||| byte.toNat <<< br.bits
      pos := br.pos + 1
      bits := br.bits + 8 } bits := by
  obtain ⟨small, rfl⟩ := holds
  obtain ⟨inside, rfl⟩ := List.getElem?_eq_some_iff.mp found
  have sum : br.buf ||| br.src[br.pos].toNat <<< br.bits =
      br.buf + 2 ^ br.bits * br.src[br.pos].toNat := by
    rw [Nat.or_comm, ← Nat.shiftLeft_add_eq_or_of_lt small, Nat.shiftLeft_eq, add_comm, mul_comm]
  have byteSmall : br.src[br.pos].toNat < 2 ^ 8 := br.src[br.pos].toNat_lt
  rw [Holds]
  rw [sum, lsbBits_add_mul _ small, drop_eq_getElem_cons inside, append_assoc]
  refine ⟨?_, rfl⟩
  calc br.buf + 2 ^ br.bits * br.src[br.pos].toNat
      < 2 ^ br.bits + 2 ^ br.bits * br.src[br.pos].toNat := by omega
    _ = 2 ^ br.bits * (br.src[br.pos].toNat + 1) := by rw [mul_succ, add_comm]
    _ ≤ 2 ^ br.bits * 2 ^ 8 := mul_le_mul_left _ byteSmall
    _ = 2 ^ (br.bits + 8) := (pow_add 2 br.bits 8).symm

theorem fill_holds (holds : Holds br bits) (enough : n ≤ bits.length) :
    ∃ br', fill n br = .ok () br' ∧ Holds br' bits ∧ n ≤ br'.bits := by
  fun_induction fill n br with
  | case1 br more ended =>
    have length := holds.length
    have outside := getElem?_eq_none_iff.mp ended
    omega
  | case2 br more byte found ih => exact ih (holds.push found)
  | case3 br filled => exact ⟨br, rfl, holds, not_lt.mp filled⟩

/-- The low bits of the buffer are the next ones, and shifting them out leaves the others. -/
theorem Holds.shift (holds : Holds br bits) (enough : n ≤ br.bits) :
    bits.take n = lsbBits n br.buf ∧
      Holds { br with buf := br.buf >>> n, bits := br.bits - n } (bits.drop n) := by
  obtain ⟨fits, rfl⟩ := holds
  obtain ⟨k, total⟩ : ∃ k, br.bits = n + k := ⟨br.bits - n, by omega⟩
  have length : (lsbBits n br.buf).length = n := length_lsbBits n br.buf
  rw [total, lsbBits_add, append_assoc]
  refine ⟨take_left' length, ?_, ?_⟩
  · dsimp only
    rw [Nat.shiftRight_eq_div_pow, Nat.div_lt_iff_lt_mul (Nat.two_pow_pos n), ← pow_add,
      Nat.add_sub_cancel_left, add_comm k n, ← total]
    exact fits
  · dsimp only
    rw [drop_left' length, Nat.shiftRight_eq_div_pow, Nat.add_sub_cancel_left]

theorem readBits_runs {v : ℕ} (small : v < 2 ^ n) (rest : List Bool) :
    Runs Holds (readBits n) (lsbBits n v ++ rest) v rest := by
  intro br holds
  obtain ⟨br', filled, held, enough⟩ := @fill_holds _ br n holds (by simp)
  obtain ⟨low, left⟩ := held.shift enough
  have length : (lsbBits n v).length = n := length_lsbBits n v
  rw [take_left' length] at low
  rw [drop_left' length] at left
  have value : br'.buf % 2 ^ n = v := by
    rw [← lsbBits_inj low, mod_eq_of_lt small]
  refine ⟨_, ?_, left⟩
  rw [readBits, bind_of_ok filled, takeBits, one_shiftLeft, and_two_pow_sub_one_eq_mod, value]

theorem readBit_runs (bit : Bool) (rest : List Bool) :
    Runs Holds (readBits 1) (bit :: rest) bit.toNat rest := by
  cases bit
  · exact @readBits_runs 1 0 (by decide) rest
  · exact @readBits_runs 1 1 (by decide) rest

theorem alignToByte_runs (bits : List Bool) :
    Runs Holds alignToByte bits () (bits.drop (bits.length % 8)) := by
  intro br holds
  have length := holds.length
  have extra : br.bits &&& 7 = bits.length % 8 := by
    rw [show (7 : ℕ) = 2 ^ 3 - 1 from rfl, and_two_pow_sub_one_eq_mod]
    omega
  refine ⟨_, rfl, ?_⟩
  rw [extra]
  split
  · exact (holds.shift (by omega)).2
  · rw [show bits.length % 8 = 0 by omega]
    exact holds

/-! ## The tables -/

section Tables

variable {lengths : List ℕ}

theorem getD_set (values : List ℕ) (small : i < values.length) (v l : ℕ) :
    (values.set i v).getD l 0 = if i = l then v else values.getD l 0 := by
  simp only [getD_eq_getElem?_getD, getElem?_set]
  split <;> simp

theorem getD_modify_succ (counts : List ℕ) (small : i < counts.length) (l : ℕ) :
    (counts.modify i (· + 1)).getD l 0 = counts.getD l 0 + if i = l then 1 else 0 := by
  by_cases same : i = l
  · subst same
    simp [getElem?_eq_getElem small]
  · simp [same]

variable {l : ℕ}

theorem blCount_foldl {counts : List ℕ} (size : counts.length = 16) (small : l < 16) :
    (lengths.foldl (fun counts l => if 0 < l ∧ l < 16 then counts.modify l (· + 1) else counts)
      counts).getD l 0 = counts.getD l 0 + count lengths l := by
  induction lengths generalizing counts with
  | nil => simp [CanonicalCode.count]
  | cons k lengths ih =>
    rw [foldl_cons, CanonicalCode.count_cons]
    split
    · rename_i coded
      rw [ih (by simp [size]), getD_modify_succ _ (by omega)]
      simp only [coded.1, true_and]
      omega
    · rename_i skipped
      rw [ih size, if_neg (by omega), add_zero]

theorem blCount_eq (small : l < 16) : (blCount lengths).getD l 0 = count lengths l := by
  rw [blCount, blCount_foldl length_replicate small, getD_replicate _ small, zero_add]

/-- The state of the loop for `next_code` after the lengths up to `n`. -/
structure NextCodes (lengths : List ℕ) (n : ℕ) (acc : ℕ × List ℕ) : Prop where
  code : acc.1 = firstCode lengths n
  size : acc.2.length = 16
  table : ∀ l, 0 < l → l ≤ n → acc.2.getD l 0 = firstCode lengths l

theorem NextCodes.round {acc : ℕ × List ℕ} (codes : NextCodes lengths n acc)
    (small : n < 15) : NextCodes lengths (n + 1) (nextCodeRound (blCount lengths) acc (1 + n)) := by
  have next : (acc.1 + (blCount lengths).getD (1 + n - 1) 0) <<< 1 = firstCode lengths (n + 1) := by
    rw [Nat.add_sub_cancel_left, blCount_eq (by omega), codes.code, firstCode]
    omega
  refine ⟨next, by simp [nextCodeRound, codes.size], ?_⟩
  intro l pos bounded
  rw [nextCodeRound, next, getD_set _ (by rw [codes.size]; omega)]
  split
  · rename_i here
    rw [← here, add_comm 1 n]
  · exact codes.table l pos (by omega)

theorem nextCodes_foldl (small : n ≤ 15) : NextCodes lengths n
      ((range' 1 n).foldl (nextCodeRound (blCount lengths)) (0, replicate 16 0)) := by
  induction n with
  | zero => exact ⟨rfl, rfl, fun l pos bounded => by omega⟩
  | succ n ih =>
    rw [range'_1_concat, foldl_append]
    exact (ih (by omega)).round (by omega)

theorem nextCode_eq (pos : 0 < l) (small : l < 16) :
    (nextCode lengths).getD l 0 = firstCode lengths l :=
  (nextCodes_foldl (le_refl 15)).table l pos (by omega)

theorem entries_isTable (lengths : List ℕ) : IsTable lengths (entries lengths) := by
  have perm : (entries lengths).Perm (lengths.zipIdx.filter fun entry => 0 < entry.1) :=
    mergeSort_perm _ _
  refine ⟨?_, perm⟩
  have sorted : (entries lengths).Pairwise fun a b => entryLe a b :=
    pairwise_mergeSort (by grind [entryLe]) (by grind [entryLe]) _
  have distinct : (entries lengths).Nodup := by
    rw [perm.nodup_iff]
    apply Nodup.filter
    apply Nodup.of_map Prod.snd
    rw [zipIdx_map_snd]
    exact nodup_range'
  refine (sorted.and distinct).imp ?_
  rintro a b ⟨le, ne⟩
  have symbols : a.1 = b.1 → a.2 ≠ b.2 := fun length symbol => ne (Prod.ext length symbol)
  rw [entryLe, decide_eq_true_eq] at le
  rw [Before]
  omega

theorem foldl_set_spec (values : List ℕ) (g : ℕ → ℕ) (order : List ℕ)
    (inside : ∀ i ∈ order, i < values.length) :
    let after := order.foldl (fun values i => values.set i (g i)) values
    after.length = values.length ∧
      ∀ l, after.getD l 0 = if l ∈ order then g l else values.getD l 0 := by
  induction order generalizing values with
  | nil => exact ⟨rfl, fun _ => rfl⟩
  | cons i order ih =>
    obtain ⟨first, others⟩ := forall_mem_cons.mp inside
    obtain ⟨length, value⟩ := ih (values.set i (g i)) (by simpa using others)
    refine ⟨length.trans length_set, fun l => (value l).trans ?_⟩
    rw [getD_set _ first]
    grind

/-- The tables after some entries in order, the greatest of them of the given length. -/
structure Filled (next : List ℕ) (done : List (ℕ × ℕ)) (length : ℕ) (st : TableState) : Prop where
  prevLen : st.prevLen = length
  idx : st.idx = done.length
  syms : st.syms = done.map (·.2)
  offsets : st.symOffset.length = 16
  codes : st.firstCode.length = 16
  offset : ∀ l, 0 < l → l ≤ length →
    st.symOffset.getD l 0 = done.countP fun entry => entry.1 < l
  first : ∀ l, 0 < l → l ≤ length → st.firstCode.getD l 0 = next.getD l 0
  behind : ∀ l, length < l → st.symOffset.getD l 0 = 0
  below : ∀ entry ∈ done, entry.1 ≤ length

theorem filled_empty (next : List ℕ) : Filled next [] 0 .empty where
  prevLen := rfl
  idx := rfl
  syms := rfl
  offsets := rfl
  codes := rfl
  offset := fun l pos bounded => absurd pos (not_lt.mpr bounded)
  first := fun l pos bounded => absurd pos (not_lt.mpr bounded)
  behind := by
    intro l _
    rw [TableState.empty, getD_eq_getElem?_getD, getElem?_replicate]
    split <;> rfl
  below := by simp

section Filling

variable {next : List ℕ} {done : List (ℕ × ℕ)} {length length' : ℕ} {st : TableState}

theorem Filled.grow (filled : Filled next done length st) (more : length ≤ length')
    (small : length' < 16) : Filled next done length' (st.grow next length') := by
  have prevLen := filled.prevLen
  have places (i : ℕ) :
      i ∈ range' (st.prevLen + 1) (length' - st.prevLen) ↔ length < i ∧ i ≤ length' := by
    rw [mem_range'_1]
    omega
  obtain ⟨offsetsSize, offset⟩ := foldl_set_spec st.symOffset (fun _ => st.idx) _ fun i place => by
    rw [filled.offsets]
    exact ((places i).mp place).2.trans_lt small
  obtain ⟨codesSize, first⟩ := foldl_set_spec st.firstCode (next.getD · 0) _ fun i place => by
    rw [filled.codes]
    exact ((places i).mp place).2.trans_lt small
  simp only [places] at offset first
  refine ⟨rfl, filled.idx, filled.syms, offsetsSize.trans filled.offsets,
    codesSize.trans filled.codes, ?_, ?_, ?_, ?_⟩
  · intro l pos bounded
    refine (offset l).trans ?_
    split
    · -- all entries so far are shorter than the lengths set now
      symm
      rw [filled.idx, countP_eq_length]
      intro entry mem
      have below := filled.below entry mem
      rw [decide_eq_true_eq]
      omega
    · exact filled.offset l pos (by omega)
  · intro l pos bounded
    refine (first l).trans ?_
    split
    · rfl
    · exact filled.first l pos (by omega)
  · intro l behind
    refine (offset l).trans ?_
    rw [if_neg (by omega)]
    exact filled.behind l (by omega)
  · intro entry mem
    exact (filled.below entry mem).trans more

theorem Filled.push (filled : Filled next done length st) (symbol : ℕ) :
    Filled next (done ++ [(length, symbol)]) length
      { st with syms := st.syms ++ [symbol], idx := st.idx + 1 } where
  prevLen := filled.prevLen
  idx := by simp [filled.idx]
  syms := by simp [filled.syms]
  offsets := filled.offsets
  codes := filled.codes
  offset := by
    intro l pos bounded
    rw [countP_append, countP_singleton, if_neg (by simpa using bounded)]
    exact filled.offset l pos bounded
  first := filled.first
  behind := filled.behind
  below := by
    intro entry mem
    rcases mem_append.mp mem with old | new
    · exact filled.below entry old
    · rw [mem_singleton.mp new]

theorem Filled.add (filled : Filled next done length st)
    (more : length ≤ entry.1) (small : entry.1 < 16) :
    Filled next (done ++ [entry]) entry.1 (st.add next entry) := by
  rw [TableState.add]
  split
  · exact (filled.grow more small).push entry.2
  rename_i same
  have equal : entry.1 = length := (not_not.mp same).trans filled.prevLen
  rw [← equal] at filled
  exact filled.push entry.2

theorem filled_foldl {table : List (ℕ × ℕ)} (sorted : table.Pairwise Before)
    (small : ∀ entry ∈ table, entry.1 < 16) : Filled next table ((table.getLast?.map (·.1)).getD 0)
      (table.foldl (TableState.add next) .empty) := by
  induction table using reverseRecOn with
  | nil => exact filled_empty next
  | append_singleton front entry ih =>
    obtain ⟨sortedFront, -, least⟩ := pairwise_append.mp sorted
    have filled := ih sortedFront fun e mem => small e (mem_append_left _ mem)
    have more : (front.getLast?.map (·.1)).getD 0 ≤ entry.1 := by
      cases last : front.getLast? with
      | none => simp
      | some e =>
        have before := least e (mem_of_getLast? last) entry (by simp)
        rw [Before] at before
        simp only [Option.map_some, Option.getD_some]
        omega
    simpa using filled.add more (small entry (by simp))

end Filling

end Tables

/-! ## Symbols -/

section Symbols

variable {lengths : List ℕ} {s : ℕ}

/-- A symbol that the tables can decode: its codeword is shorter than the longest ones, or
those have 15 bits. -/
def Usable (lengths : List ℕ) (s : ℕ) : Prop :=
  lengthOf lengths s < maxLength lengths ∨ maxLength lengths = 15
  deriving Decidable

theorem buildHuff_maxLen : (buildHuff lengths).maxLen = maxLength lengths :=
  (entries_isTable lengths).getLast?

section

variable (bounded : ∀ l ∈ lengths, l ≤ 15)
include bounded

theorem mem_entries_lt (mem : entry ∈ entries lengths) : entry.1 < 16 := by
  obtain ⟨-, here⟩ := (entries_isTable lengths).mem_iff.mp mem
  exact lt_succ_of_le (bounded _ (mem_of_getElem? here))

theorem buildHuff_filled : Filled (nextCode lengths) (entries lengths) (maxLength lengths)
      ((entries lengths).foldl (TableState.add (nextCode lengths)) .empty) := by
  rw [← (entries_isTable lengths).getLast?]
  exact filled_foldl (entries_isTable lengths).sorted fun _ => mem_entries_lt bounded

theorem buildHuff_firstCode (pos : 0 < l) (le : l ≤ maxLength lengths) (small : l ≤ 15) :
    (buildHuff lengths).firstCode.getD l 0 = firstCode lengths l :=
  ((buildHuff_filled bounded).first l pos le).trans (nextCode_eq pos (by omega))

/-- The difference of offsets misses the codes of the greatest length. -/
theorem buildHuff_count (pos : 0 < l)
    (le : l ≤ maxLength lengths) (small : l ≤ 15) : (buildHuff lengths).count l =
      if l < maxLength lengths ∨ maxLength lengths = 15 then count lengths l else 0 := by
  have filled := buildHuff_filled bounded
  have isTable := entries_isTable lengths
  have offset : (buildHuff lengths).symOffset.getD l 0 = _ := filled.offset l pos le
  have next := isTable.countP_succ pos
  rw [HuffTable.count, offset]
  by_cases last : l < 15
  · rw [if_pos last]
    by_cases inner : l < maxLength lengths
    · have after : (buildHuff lengths).symOffset.getD (l + 1) 0 = _ :=
        filled.offset (l + 1) (by omega) inner
      rw [after, if_pos (.inl inner), next, Nat.add_sub_cancel_left]
    · have after : (buildHuff lengths).symOffset.getD (l + 1) 0 = _ :=
        filled.behind (l + 1) (by omega)
      rw [after, if_neg (by omega), Nat.zero_sub]
  · have size : (buildHuff lengths).syms.length = (entries lengths).countP (·.1 < l + 1) := by
      have syms : (buildHuff lengths).syms = _ := filled.syms
      rw [syms, length_map]
      symm
      rw [countP_eq_length]
      intro entry mem
      have less := mem_entries_lt bounded mem
      rw [decide_eq_true_eq]
      omega
    have bound : maxLength lengths ≤ 15 := by
      by_contra above
      exact above (bounded _ (maxLength_mem (by omega)))
    rw [if_neg last, size, next, Nat.add_sub_cancel_left, if_pos (.inr (by omega))]

theorem buildHuff_syms (coded : lengthOf lengths s ≠ 0) :
    (buildHuff lengths).syms.getD ((buildHuff lengths).symOffset.getD (lengthOf lengths s) 0 +
      rank lengths s) 0 = s := by
  have filled := buildHuff_filled bounded
  have offset : (buildHuff lengths).symOffset.getD (lengthOf lengths s) 0 = _ :=
    filled.offset _ (pos_of_ne_zero coded) (lengthOf_le_maxLength s)
  have syms : (buildHuff lengths).syms = _ := filled.syms
  rw [offset, syms, getD_eq_getElem?_getD, getElem?_map, (entries_isTable lengths).getElem? coded]
  rfl

end

theorem shiftLeft_or_testBit (c j : ℕ) :
    (c / 2 ^ (j + 1)) <<< 1 ||| (c.testBit j).toNat = c / 2 ^ j := by
  rw [← shiftLeft_add_eq_or_of_lt (Bool.toNat_lt _), toNat_testBit, pow_succ,
    ← Nat.div_div_eq_div_mul]
  omega

/-- The walk of `decode_symbol` with the last `j + 1` bits of a codeword to come. -/
theorem decodeFrom_decides (legal : Legal lengths 15) (coded : lengthOf lengths s ≠ 0) {j : ℕ}
    (unread : j + 1 ≤ lengthOf lengths s) (rest : List Bool) : Decides Holds (Usable lengths s)
      (decodeFrom (buildHuff lengths) (code lengths s / 2 ^ (j + 1)) (lengthOf lengths s - j)
        (maxLength lengths - (lengthOf lengths s - j) + 1))
      (msbBits (j + 1) (code lengths s) ++ rest) s rest := by
  have bound := legal.lengthOf_le s
  have le := @lengthOf_le_maxLength lengths s
  -- induction on the bits to come; until the last one the code read so far is behind all
  -- codes of its length
  induction j with
  | zero =>
    refine (readBit_runs _ _).bind_decides ?_
    rw [shiftLeft_or_testBit, pow_zero, Nat.div_one, Nat.sub_zero,
      buildHuff_firstCode legal.bounded (by omega) le bound,
      buildHuff_count legal.bounded (by omega) le bound]
    have less := rank_lt_count coded
    by_cases usable : Usable lengths s
    · rw [if_pos (show _ ∨ _ from usable), if_pos (by rw [code]; omega), code,
        Nat.add_sub_cancel_left,
        buildHuff_syms legal.bounded coded]
      exact ⟨fun _ => .pure s rest, fun unusable => absurd usable unusable⟩
    · rw [if_neg (show ¬ (_ ∨ _) from usable), if_neg (by omega)]
      have longest : maxLength lengths - lengthOf lengths s = 0 := by
        rw [Usable] at usable
        omega
      rw [longest]
      exact ⟨fun holds => absurd holds usable, fun _ => .throw _ _⟩
  | succ j ih =>
    refine (readBit_runs _ _).bind_decides ?_
    have shorter : lengthOf lengths s - (j + 1) < lengthOf lengths s := by omega
    have behind := firstCode_add_count_le_div shorter
    rw [show lengthOf lengths s - (lengthOf lengths s - (j + 1)) = j + 1 by omega] at behind
    have counted := buildHuff_count legal.bounded (l := lengthOf lengths s - (j + 1))
      (by omega) (by omega) (by omega)
    rw [if_pos (.inl (by omega))] at counted
    rw [shiftLeft_or_testBit, buildHuff_firstCode legal.bounded (by omega) (by omega) (by omega),
      if_neg (by omega), show lengthOf lengths s - (j + 1) + 1 = lengthOf lengths s - j by omega,
      show maxLength lengths - (lengthOf lengths s - (j + 1)) =
        maxLength lengths - (lengthOf lengths s - j) + 1 by omega]
    exact ih (by omega)

/-- `decode_symbol` decodes the codeword of a symbol if the symbol is usable, and fails on it
otherwise. -/
theorem decodeSymbol_decides (legal : Legal lengths 15) (coded : lengthOf lengths s ≠ 0)
    (rest : List Bool) : Decides Holds (Usable lengths s) (decodeSymbol (buildHuff lengths))
      (codeword lengths s ++ rest) s rest := by
  have le := @lengthOf_le_maxLength lengths s
  obtain ⟨j, length⟩ := exists_eq_succ_of_ne_zero coded
  rw [succ_eq_add_one] at length
  have walk := decodeFrom_decides legal coded (le_of_eq length.symm) rest
  rw [← length, div_eq_of_lt (legal.code_lt coded), show lengthOf lengths s - j = 1 by omega,
    show maxLength lengths - 1 + 1 = maxLength lengths by omega] at walk
  rw [decodeSymbol, buildHuff_maxLen, if_neg (by omega)]
  exact walk

end Symbols

end SmartOs.Net.Inflate
