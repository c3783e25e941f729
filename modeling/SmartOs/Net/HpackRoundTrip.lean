/-
# The HPACK round trip

Integers and strings decode to what was encoded, with any bytes after them. For headers this
holds for exact matches of the static table, for names outside of it and for names whose first
index is at most 14. A larger index does not fit into the four bits the encoder gives it and
is cut off; the decoder then finds another name, or loses its place in the block.
-/

import SmartOs.Net.Hpack

namespace SmartOs.Net.Hpack

open CS SmartPack List Nat UInt8

variable {d' : HpackDecoder}

/-! ## Bits of a byte -/

theorem high_clear_iff (b : UInt8) : b &&& 0x80 = 0 ↔ b.toNat < 128 := by
  have all : ∀ n < 256, ofNat n &&& 0x80 = 0 ↔ n < 128 := by decide +kernel
  have this := all b.toNat b.toNat_lt
  rwa [UInt8.ofNat_toNat] at this

variable {n v shift value : ℕ} {b : UInt8} {s : String} {rest src out : List UInt8}

theorem toNat_ofNat_of_lt (small : n < 256) : (ofNat n).toNat = n :=
  toNat_ofNat_of_lt' small

theorem and_seven (n : ℕ) : n &&& 0x7F = n % 128 := and_two_pow_sub_one_eq_mod n 7

theorem low_bits_or {pattern : UInt8} (clear : pattern.toNat % 2 ^ n = 0) (small : v < 2 ^ n)
    (byte : v < 256) : (pattern ||| .ofNat v).toNat &&& (2 ^ n - 1) = v := by
  rw [UInt8.toNat_or, toNat_ofNat_of_lt byte, and_or_distrib_right, and_two_pow_sub_one_eq_mod,
    and_two_pow_sub_one_eq_mod, clear, mod_eq_of_lt small, zero_or]

/-! ## Integers -/

/-- No sum of the loop of `decode_integer` goes beyond 64 bits. -/
def SumsFit (value shift : ℕ) : List UInt8 → Prop
  | [] => True
  | b :: src =>
    let sum := value + (b.toNat &&& 0x7F) <<< shift
    sum < 2 ^ 64 ∧ (¬b &&& 0x80 = 0 → shift + 7 ≤ 63 → SumsFit sum (shift + 7) src)

theorem decodeContinuation_encodeContinuation (fits : value + v * 2 ^ shift < 2 ^ 64) :
    decodeContinuation value shift (encodeContinuation v ++ rest) =
        .ok (value + v * 2 ^ shift) rest ∧ SumsFit value shift (encodeContinuation v ++ rest) := by
  fun_induction encodeContinuation v generalizing value shift with
  | case1 v more ih =>
    have low := and_seven v
    have small : v % 128 < 128 := mod_lt _ (by decide)
    have group : (0x80 ||| ofNat (v &&& 0x7F)).toNat &&& 0x7F = v % 128 := by
      rw [low]
      exact @low_bits_or 7 _ 0x80 (by decide) small (by omega)
    have continued : ¬ (0x80 ||| ofNat (v &&& 0x7F)) &&& 0x80 = 0 := by
      rw [low, high_clear_iff]
      have := @left_le_or 0x80 (ofNat (v % 128)).toNat
      exact not_lt.mpr this
    have shifted : v >>> 7 = v / 128 := shiftRight_eq_div_pow v 7
    -- a number that needs another group is at least `2 ^ (shift + 7)`
    have split : v * 2 ^ shift = v % 128 * 2 ^ shift + v / 128 * 2 ^ (shift + 7) := by
      rw [pow_add, mul_comm (2 ^ shift), ← mul_assoc, ← add_mul]
      congr 1
      omega
    have room : shift + 7 ≤ 63 := by
      by_contra beyond
      have big : 2 ^ 64 ≤ 2 ^ (shift + 7) := Nat.pow_le_pow_right (by decide) (by omega)
      have := Nat.le_mul_of_pos_left (2 ^ (shift + 7)) (show 0 < v / 128 by omega)
      omega
    obtain ⟨decoded, sums⟩ := @ih (shift + 7) (value + v % 128 * 2 ^ shift) (by rw [shifted]; omega)
    rw [cons_append, decodeContinuation, if_neg continued, if_neg (by omega), SumsFit, group,
      shiftLeft_eq, mod_eq_of_lt (by omega : v % 128 * 2 ^ shift < 2 ^ 64),
      mod_eq_of_lt (by omega), split, ← add_assoc, ← shifted]
    exact ⟨decoded, by omega, fun _ _ => sums⟩
  | case2 v last =>
    have small : v < 128 := by omega
    have toNat : (ofNat v).toNat = v := toNat_ofNat_of_lt (by omega)
    have ended : ofNat v &&& 0x80 = 0 := by rwa [high_clear_iff, toNat]
    rw [singleton_append, decodeContinuation, if_pos ended, SumsFit, toNat,
      and_seven, mod_eq_of_lt small, shiftLeft_eq,
      mod_eq_of_lt (by omega : v * 2 ^ shift < 2 ^ 64), mod_eq_of_lt fits]
    exact ⟨rfl, fits, fun more => absurd ended more⟩

/-- The same for the whole of `decode_integer`. -/
def IntegerFits (n : ℕ) : List UInt8 → Prop
  | [] => True
  | b :: src => b.toNat &&& 2 ^ n - 1 = 2 ^ n - 1 → SumsFit (2 ^ n - 1) 0 src

theorem decodeInteger_encodeInteger {pattern : UInt8} (width : n ≤ 8)
    (clear : pattern.toNat % 2 ^ n = 0) (fits : value < 2 ^ 64) (rest : List UInt8) :
    decodeInteger n (encodeInteger pattern n value ++ rest) = .ok value rest ∧
      IntegerFits n (encodeInteger pattern n value ++ rest) := by
  have pow : 2 ^ n ≤ 256 := Nat.pow_le_pow_right (by decide) width
  unfold encodeInteger decodeInteger
  by_cases short : value < 2 ^ n - 1
  · simp only [if_pos short, singleton_append, IntegerFits]
    rw [low_bits_or clear (by omega) (by omega), if_pos short]
    exact ⟨rfl, fun long => absurd long short.ne⟩
  · have total : 2 ^ n - 1 + (value - (2 ^ n - 1)) * 2 ^ 0 = value := by omega
    obtain ⟨decoded, sums⟩ := decodeContinuation_encodeContinuation (total.trans_lt fits)
    simp only [if_neg short, cons_append]
    rw [low_bits_or clear (by omega) (by omega), if_neg (lt_irrefl _), decoded, total]
    exact ⟨rfl, fun _ => sums⟩

theorem decodeInteger_of_short (short : b.toNat % 2 ^ n < 2 ^ n - 1) :
    decodeInteger n (b :: src) = .ok (b.toNat % 2 ^ n) src := by
  simp [decodeInteger, if_pos short]

theorem decodeInteger_of_long (long : b.toNat % 2 ^ n = 2 ^ n - 1) :
    decodeInteger n (b :: src) = decodeContinuation (2 ^ n - 1) 0 src := by
  simp [decodeInteger, long]

/-! ## Strings -/

theorem takeBytes_append (bytes : List UInt8) :
    takeBytes bytes.length (bytes ++ rest) = .ok bytes rest := by
  simp [takeBytes]

/-- Strings are written uncompressed, so their first byte has no high bit. -/
theorem encodeInteger_seven_cons :
    ∃ b tail, encodeInteger 0x00 7 value = b :: tail ∧ b &&& 0x80 = 0 := by
  by_cases short : value < 2 ^ 7 - 1
  · refine ⟨_, _, if_pos short, ?_⟩
    rw [high_clear_iff, UInt8.zero_or, toNat_ofNat_of_lt (by omega)]
    omega
  · exact ⟨_, _, if_neg short, by decide⟩

theorem decodeString_encodeString (fits : (strBytes s).length < 2 ^ 64) :
    decodeString (encodeString s ++ rest) = .ok s rest := by
  obtain ⟨b, tail, first, plain⟩ := encodeInteger_seven_cons
  have length : decodeInteger 7 (b :: (tail ++ (strBytes s ++ rest))) =
      .ok (strBytes s).length (strBytes s ++ rest) := by
    rw [← cons_append, ← first]
    exact (decodeInteger_encodeInteger (by decide) (by decide) fits _).1
  rw [encodeString, first, append_assoc, cons_append]
  simp only [decodeString, plain]
  rw [decodeString.decodeWith, bind_of_ok length, bind_of_ok (takeBytes_append _)]
  simp [fromUtf8_strBytes, orThrow]

/-- What a decoded string says about the bytes it was read from. -/
theorem decodeString_eq_ok (decoded : decodeString src = .ok s rest) :
    ∃ b tail len src₁, src = b :: tail ∧ decodeInteger 7 src = .ok len src₁ ∧
      len ≤ src₁.length ∧ (b.toNat < 128 → src₁.take len = strBytes s) ∧
      (128 ≤ b.toNat → huffmanDecode (src₁.take len) = some (strBytes s)) := by
  cases src with
  | nil => cases decoded
  | cons b tail =>
    obtain ⟨len, src₁, length, decoded⟩ := bind_eq_ok_iff.mp decoded
    obtain ⟨raw, src₂, taken, decoded⟩ := bind_eq_ok_iff.mp decoded
    obtain ⟨bytes, src₃, plain, valid⟩ := bind_eq_ok_iff.mp decoded
    obtain ⟨inside, cut⟩ : len ≤ src₁.length ∧ src₁.take len = raw := by
      simp only [takeBytes] at taken
      split at taken
      · cases taken
      · cases taken
        exact ⟨by omega, rfl⟩
    have text : strBytes s = bytes := strBytes_of_fromUtf8 (orThrow_eq_ok_iff.mp valid).1
    have symbols := (orThrow_eq_ok_iff.mp plain).1
    refine ⟨b, tail, len, src₁, rfl, length, inside, fun low => ?_, fun high => ?_⟩
    · have clear := (high_clear_iff b).mpr low
      simp only [clear, ne_eq, not_true_eq_false, decide_false, Bool.false_eq_true, if_false,
        Option.some.injEq] at symbols
      rw [cut, text, symbols]
    · have set : ¬ b &&& 0x80 = 0 := fun clear => by
        have := (high_clear_iff b).mp clear
        omega
      simp only [set, ne_eq, not_false_eq_true, decide_true, if_true] at symbols
      rw [cut, text, symbols]

/-! ## Headers that survive -/

/-- The header has a representation of its own: it is an entry of the static table, or its
name is not in the table, or the first index of its name fits into four bits. -/
def Representable (header : Header) : Prop :=
  header ∈ hpackStatic ∨ ∀ idx ∈ nameIndex header.1, idx + 1 < 15
  deriving Decidable

/-- The lengths of the name and of the value are below the bound. -/
def Short (header : Header) : Prop :=
  (strBytes header.1).length < 2 ^ 20 ∧ (strBytes header.2).length < 2 ^ 20

theorem findIdx_static {p : Header → Bool} {idx : ℕ} (found : hpackStatic.findIdx? p = some idx) :
    ∃ entry, hpackStatic[idx]? = some entry ∧ p entry ∧ idx < 61 ∧
      ∀ j < idx, ∀ other, hpackStatic[j]? = some other → ¬ p other := by
  obtain ⟨inside, holds, earlier⟩ := findIdx?_eq_some_iff_getElem.mp found
  refine ⟨_, getElem?_eq_getElem inside, holds, inside, fun j before other there => ?_⟩
  obtain ⟨inside', rfl⟩ := List.getElem?_eq_some_iff.mp there
  exact earlier j before

namespace HpackDecoder

variable {d d' : HpackDecoder} {entry : Header} {idx : ℕ}

theorem lookup_static (there : hpackStatic[idx]? = some entry) :
    d.lookup (idx + 1) = some entry := by
  obtain ⟨inside, -⟩ := List.getElem?_eq_some_iff.mp there
  rw [lookup, if_neg (succ_ne_zero idx), if_pos (succ_le_of_lt inside), Nat.add_sub_cancel, there]

theorem literalName_static (there : hpackStatic[idx]? = some entry) :
    d.literalName (idx + 1) src = .ok entry.1 src := by
  simp [literalName, lookup_static there]

/-- A first byte below 16 starts a literal that is not indexed. -/
theorem representation_literal (low : b.toNat < 16) : d.representation b = do
      let header ← d.literal 4
      return (d, [header]) := by
  have all : ∀ n < 16, ofNat n &&& 0x80 = 0 ∧ ofNat n &&& 0xC0 ≠ 0x40 ∧
      ofNat n &&& 0xF0 = 0x00 := by decide
  obtain ⟨plain, fresh, unindexed⟩ := all b.toNat low
  rw [UInt8.ofNat_toNat] at plain fresh unindexed
  rw [representation, if_neg (not_not.mpr plain), if_neg fresh, if_pos (.inl unindexed)]

theorem representation_indexed (there : hpackStatic[idx]? = some entry) :
    d.representation (0x80 ||| .ofNat (idx + 1)) ((0x80 ||| .ofNat (idx + 1)) :: rest) =
      .ok (d, [entry]) rest := by
  obtain ⟨inside, -⟩ := List.getElem?_eq_some_iff.mp there
  rw [length_hpackStatic] at inside
  have indexed : ¬ (0x80 ||| ofNat (idx + 1)) &&& 0x80 = 0 := by
    rw [high_clear_iff]
    exact not_lt.mpr left_le_or
  have number := (@decodeInteger_encodeInteger 7 (idx + 1) 0x80 (by decide) (by decide)
    (by omega) rest).1
  rw [encodeInteger, if_pos (by omega), singleton_append] at number
  rw [representation, if_pos indexed, bind_of_ok number, lookup_static there]
  rfl

theorem literal_named {value : String} (there : hpackStatic[idx]? = some entry)
    (fits : idx + 1 < 15) (short : (strBytes value).length < 2 ^ 64) :
    d.literal 4 (.ofNat (idx + 1) :: (encodeString value ++ rest)) = .ok (entry.1, value) rest := by
  have number := (@decodeInteger_encodeInteger 4 (idx + 1) 0x00 (by decide) (by decide)
    (by omega) (encodeString value ++ rest)).1
  rw [encodeInteger, if_pos (by omega), singleton_append, UInt8.zero_or] at number
  rw [literal, bind_of_ok number, bind_of_ok (literalName_static there),
    bind_of_ok (decodeString_encodeString short)]
  rfl

theorem literal_new {name value : String} (shortName : (strBytes name).length < 2 ^ 64)
    (short : (strBytes value).length < 2 ^ 64) :
    d.literal 4 (0x00 :: (encodeString name ++ (encodeString value ++ rest))) =
      .ok (name, value) rest := by
  have number : decodeInteger 4 (0x00 :: (encodeString name ++ (encodeString value ++ rest))) =
      .ok 0 (encodeString name ++ (encodeString value ++ rest)) := rfl
  have first : d.literalName 0 (encodeString name ++ (encodeString value ++ rest)) =
      .ok name (encodeString value ++ rest) := decodeString_encodeString shortName
  rw [literal, bind_of_ok number, bind_of_ok first, bind_of_ok (decodeString_encodeString short)]
  rfl

end HpackDecoder

open HpackDecoder

/-- The three forms an encoded header can take. -/
theorem hpackEncodeHeader_cases (header : Header) : (∃ idx, hpackStatic[idx]? = some header ∧
      hpackEncodeHeader header = [0x80 ||| .ofNat (idx + 1)]) ∨
    (header ∉ hpackStatic ∧ ∃ idx, nameIndex header.1 = some idx ∧
      hpackEncodeHeader header = .ofNat ((idx + 1) % 16) :: encodeString header.2) ∨
    (header ∉ hpackStatic ∧ nameIndex header.1 = none ∧
      hpackEncodeHeader header = 0x00 :: (encodeString header.1 ++ encodeString header.2)) := by
  unfold hpackEncodeHeader
  cases exactly : hpackStatic.findIdx? (· = header) with
  | some idx =>
    obtain ⟨entry, there, same, -, -⟩ := findIdx_static exactly
    rw [decide_eq_true_eq] at same
    exact .inl ⟨idx, same ▸ there, rfl⟩
  | none =>
    have absent : header ∉ hpackStatic := by
      intro mem
      have := findIdx?_eq_none_iff.mp exactly header mem
      simp at this
    cases named : nameIndex header.1 with
    | some idx =>
      obtain ⟨-, -, -, small, -⟩ := findIdx_static named
      have cut : ∀ n < 61, (0x00 ||| ofNat (n + 1) &&& 0x0F) = .ofNat ((n + 1) % 16) := by
        decide
      exact .inr (.inl ⟨absent, idx, rfl, congrArg (· :: encodeString header.2) (cut idx small)⟩)
    | none => exact .inr (.inr ⟨absent, rfl, rfl⟩)

theorem representation_encode {header : Header} (good : Representable header)
    (short : Short header) (d : HpackDecoder) (rest : List UInt8) :
    ∃ b tail, hpackEncodeHeader header ++ rest = b :: tail ∧
      d.representation b (b :: tail) = .ok (d, [header]) rest := by
  have long : 2 ^ 20 ≤ 2 ^ 64 := by decide
  have shortName := lt_of_lt_of_le short.1 long
  have shortValue := lt_of_lt_of_le short.2 long
  rcases hpackEncodeHeader_cases header with
    ⟨idx, there, form⟩ | ⟨absent, idx, named, form⟩ | ⟨absent, unnamed, form⟩
  · exact ⟨_, rest, by rw [form]; rfl, representation_indexed there⟩
  · have fits : idx + 1 < 15 := good.resolve_left absent idx named
    obtain ⟨entry, there, same, -, -⟩ := findIdx_static named
    rw [decide_eq_true_eq] at same
    refine ⟨_, _, by rw [form, cons_append], ?_⟩
    rw [mod_eq_of_lt (by omega), representation_literal (by
      rw [toNat_ofNat_of_lt (by omega)]
      omega), bind_of_ok (literal_named there fits shortValue), same]
    rfl
  · refine ⟨_, _, by rw [form, cons_append], ?_⟩
    rw [representation_literal (by decide), append_assoc,
      bind_of_ok (literal_new shortName shortValue)]
    rfl

/-! ## Compressed strings are not much shorter -/

namespace HuffmanState

theorem drain_budget (s : HuffmanState) :
    5 * s.drain.out.length + s.drain.nbits ≤ 5 * s.out.length + s.nbits := by
  fun_induction drain s with
  | case1 s sym len found shift ih =>
    have := huffmanLookup_length found
    simp only [length_append, length_singleton] at ih
    omega
  | case2 s none => exact le_refl _

theorem out_drain (s : HuffmanState) : ∃ more, s.drain.out = s.out ++ more := by
  fun_induction drain s with
  | case1 s sym len found shift ih =>
    obtain ⟨more, later⟩ := ih
    exact ⟨sym :: more, by simpa using later⟩
  | case2 s none => exact ⟨[], (append_nil _).symm⟩

theorem foldl_feed (src : List UInt8) (s : HuffmanState) :
    5 * (src.foldl feed s).out.length + (src.foldl feed s).nbits ≤
        5 * s.out.length + s.nbits + 8 * src.length ∧
      ∃ more, (src.foldl feed s).out = s.out ++ more := by
  induction src generalizing s with
  | nil => exact ⟨le_refl _, [], (append_nil _).symm⟩
  | cons byte src ih =>
    obtain ⟨budget, later, kept⟩ := ih (s.feed byte)
    have first : 5 * (s.feed byte).out.length + (s.feed byte).nbits ≤
        5 * s.out.length + (s.nbits + 8) := drain_budget _
    obtain ⟨more, added⟩ : ∃ more, (s.feed byte).out = s.out ++ more := out_drain _
    refine ⟨?_, more ++ later, ?_⟩
    · rw [foldl_cons, length_cons]
      omega
    · rw [foldl_cons, kept, added, append_assoc]

end HuffmanState

theorem huffmanDecode_eq_some (decoded : huffmanDecode src = some out) :
    (src.foldl HuffmanState.feed ⟨[], 0, 0⟩).out = out := by
  simp only [huffmanDecode] at decoded
  split at decoded
  · cases decoded
  split at decoded
  · cases decoded
  · exact Option.some.inj decoded

/-- No symbol takes fewer than five bits. -/
theorem length_huffmanDecode (decoded : huffmanDecode src = some out) :
    5 * out.length ≤ 8 * src.length := by
  have budget := (HuffmanState.foldl_feed src ⟨[], 0, 0⟩).1
  rw [huffmanDecode_eq_some decoded] at budget
  simp only [length_nil] at budget
  omega

/-- The first byte decides the first symbol. A continuation byte of UTF-8 does not give a
lead byte. -/
theorem head_huffmanDecode (low : 0x80 ≤ b.toNat) (high : b.toNat < 0xC0)
    (decoded : huffmanDecode (b :: src) = some out) :
    ∃ sym tail, out = sym :: tail ∧ sym.toNat < 0xC0 := by
  have all : ∀ n < 0xC0, 0x80 ≤ n → ∃ entry ∈ huffmanLookup n 8, entry.1.toNat < 0xC0 := by
    decide +kernel
  obtain ⟨⟨sym, len⟩, found, small⟩ := all b.toNat high low
  obtain ⟨-, later, kept⟩ := HuffmanState.foldl_feed src (HuffmanState.feed ⟨[], 0, 0⟩ b)
  have first : ∃ more, (HuffmanState.feed ⟨[], 0, 0⟩ b).out = sym :: more := by
    have start : 0 <<< 8 ||| b.toNat = b.toNat := by simp
    simp only [HuffmanState.feed, start]
    rw [HuffmanState.drain]
    split
    · rename_i sym' len' found'
      have same : (sym', len') = (sym, len) := Option.some.inj (found'.symm.trans found)
      cases same
      exact HuffmanState.out_drain _
    · rename_i none
      exact absurd (none.symm.trans found) (by simp)
  obtain ⟨more, first⟩ := first
  refine ⟨sym, more ++ later, ?_, small⟩
  rw [← huffmanDecode_eq_some decoded, foldl_cons, kept, first, cons_append]

/-! ## Bytes of a string -/

theorem strBytes_lt (mem : b ∈ strBytes s) : b.toNat < 0xF8 := by
  rw [strBytes_eq_flatMap] at mem
  obtain ⟨c, -, mem⟩ := mem_flatMap.mp mem
  simp only [String.utf8EncodeChar] at mem
  split_ifs at mem <;>
    simp only [mem_cons, not_mem_nil, or_false] at mem <;>
    rcases mem with rfl | rfl | rfl | rfl <;>
    simp only [toNat_ofNat'] <;> omega

/-- A string that does not start with an ASCII character starts with a lead byte and a
continuation byte. -/
theorem strBytes_lead {bs : List UInt8} (bytes : strBytes s = b :: bs) : b.toNat < 128 ∨
      0xC2 ≤ b.toNat ∧ ∃ c cs, bs = c :: cs ∧ 0x80 ≤ c.toNat ∧ c.toNat < 0xC0 := by
  rw [strBytes_eq_flatMap] at bytes
  cases chars : s.toList with
  | nil => simp [chars] at bytes
  | cons c chars' =>
    rw [chars, flatMap_cons] at bytes
    simp only [String.utf8EncodeChar] at bytes
    split_ifs at bytes <;>
      obtain ⟨rfl, rfl⟩ := bytes
    · left
      simp only [toNat_ofNat']
      omega
    all_goals
      right
      refine ⟨?_, _, _, rfl, ?_, ?_⟩ <;> simp only [toNat_ofNat'] <;> omega

theorem eq_empty_of_strBytes (empty : strBytes s = []) : s = "" := by
  have back := fromUtf8_strBytes s
  rw [empty] at back
  exact (Option.some.inj ((fromUtf8_strBytes "").symm.trans back)).symm

/-! ## Integers read from the wrong place -/

/-- The groups below a place do not change once it is reached. -/
theorem decodeContinuation_mod (place : shift ≤ 63)
    (decoded : decodeContinuation value shift src = .ok v rest) :
    v % 2 ^ shift = value % 2 ^ shift := by
  have step (value shift g : ℕ) (place : shift ≤ 63) :
      (value + g <<< shift % 2 ^ 64) % 2 ^ 64 % 2 ^ shift = value % 2 ^ shift := by
    have divides : 2 ^ shift ∣ 2 ^ 64 := pow_dvd_pow 2 (by omega)
    rw [mod_mod_of_dvd _ divides, add_mod, mod_mod_of_dvd _ divides,
      shiftLeft_eq, mul_mod_left, add_zero, mod_mod]
  fun_induction decodeContinuation value shift src with
  | case1 => cases decoded
  | case2 value shift b src sum last =>
    simp only [EStateM.Result.ok.injEq] at decoded
    rw [← decoded.1]
    exact step value shift _ place
  | case3 => cases decoded
  | case4 value shift b src sum more inside ih =>
    have divides : 2 ^ shift ∣ 2 ^ (shift + 7) := pow_dvd_pow 2 (by omega)
    have later := congrArg (· % 2 ^ shift) (ih (by omega) decoded)
    simp only [mod_mod_of_dvd _ divides] at later
    rw [later]
    exact step value shift _ place

section

variable (below : value < 2 ^ 32) (place : shift ≤ 14)

include below place

theorem continuation_sum : (value + (b.toNat &&& 0x7F) <<< shift % 2 ^ 64) % 2 ^ 64 =
      value + b.toNat % 128 * 2 ^ shift := by
  have group : b.toNat % 128 * 2 ^ shift ≤ 127 * 2 ^ 14 :=
    Nat.mul_le_mul (by omega) (Nat.pow_le_pow_right (by decide) place)
  rw [and_seven, shiftLeft_eq, mod_eq_of_lt (by omega : _ < 2 ^ 64), mod_eq_of_lt (by omega)]

theorem decodeContinuation_of_low (low : b.toNat < 128) :
    decodeContinuation value shift (b :: src) = .ok (value + b.toNat * 2 ^ shift) src := by
  rw [decodeContinuation, if_pos ((high_clear_iff b).mpr low), continuation_sum below place,
    mod_eq_of_lt low]

theorem decodeContinuation_of_high (high : 128 ≤ b.toNat) :
    decodeContinuation value shift (b :: src) =
      decodeContinuation (value + b.toNat % 128 * 2 ^ shift) (shift + 7) src := by
  have set : ¬ b &&& 0x80 = 0 := by
    rw [high_clear_iff]
    omega
  rw [decodeContinuation, if_neg set, if_neg (by omega), continuation_sum below place]

end

/-- A length of several bytes is at least 127: its second group is not all ones, so the sum
is not wrapped around. -/
theorem le_of_decodeContinuation {x y : UInt8} {len : ℕ} (valid : y.toNat < 0xF8)
    (decoded : decodeContinuation 127 0 (x :: y :: src) = .ok len rest) : 127 ≤ len := by
  by_cases single : x.toNat < 128
  · rw [decodeContinuation_of_low (by decide) (by decide) single] at decoded
    simp only [EStateM.Result.ok.injEq] at decoded
    omega
  rw [decodeContinuation_of_high (by decide) (by decide) (by omega)] at decoded
  by_cases double : y.toNat < 128
  · rw [decodeContinuation_of_low (by omega) (by decide) double] at decoded
    simp only [EStateM.Result.ok.injEq] at decoded
    omega
  · rw [decodeContinuation_of_high (by omega) (by decide) (by omega)] at decoded
    have := decodeContinuation_mod (by decide) decoded
    omega

/-! ## Headers that are misread -/

/-- The bytes are over, or go on with a byte that can start an encoded header. -/
def StartsHeader (src : List UInt8) : Prop :=
  ∀ b tail, src = b :: tail → b.toNat < 16 ∨ 128 < b.toNat

theorem startsHeader_encodeHeaders (headers : List Header) :
    StartsHeader (encodeHeaders headers) := by
  intro b tail first
  cases headers with
  | nil => cases first
  | cons header headers =>
    rw [encodeHeaders, flatMap_cons] at first
    rcases hpackEncodeHeader_cases header with
      ⟨idx, there, form⟩ | ⟨-, idx, -, form⟩ | ⟨-, -, form⟩ <;>
      rw [form] at first <;> cases first
    · right
      have index : ∀ n < 61, 128 < (0x80 ||| ofNat (n + 1)).toNat := by decide
      obtain ⟨inside, -⟩ := List.getElem?_eq_some_iff.mp there
      exact index idx inside
    · left
      rw [toNat_ofNat_of_lt (by omega)]
      omega
    · left
      decide

/-- A string that is also found one byte further on is followed by its own first byte. -/
theorem eq_of_take_shifted {v : UInt8} {vs : List UInt8}
    (shifted : (vs ++ rest).take (vs.length + 1) = v :: vs) : ∃ rest', rest = v :: rest' := by
  cases rest with
  | nil =>
    have := congrArg length shifted
    simp at this
  | cons r rest =>
    refine ⟨rest, ?_⟩
    congr 1
    have last : vs ++ [r] = v :: vs := by
      rwa [take_append, take_of_length_le (le_succ _), Nat.add_sub_cancel_left] at shifted
    clear shifted
    induction vs generalizing v with
    | nil => exact (cons.inj last).1
    | cons x vs ih =>
      obtain ⟨rfl, tails⟩ := cons.inj last
      exact ih tails

variable {rest' : List UInt8}

/-- A value of 16 to 126 bytes is not read again from its own first byte on. -/
theorem decodeString_shifted {value : String} (least : 16 ≤ (strBytes value).length)
    (most : (strBytes value).length < 127) (starts : StartsHeader rest) :
    decodeString (strBytes value ++ rest) ≠ .ok value rest' := by
  intro decoded
  obtain ⟨b, tail, len, src, first, number, inside, plain, compressed⟩ :=
    decodeString_eq_ok decoded
  obtain ⟨v, x, y, vs, bytes⟩ : ∃ v x y vs, strBytes value = v :: x :: y :: vs := by
    match strBytes value, least with
    | v :: x :: y :: vs, _ => exact ⟨v, x, y, vs, rfl⟩
  have bound (c : UInt8) (mem : c ∈ strBytes value) : c.toNat < 0xF8 := strBytes_lt mem
  rw [bytes] at first number bound
  obtain ⟨rfl, rfl⟩ := cons.inj first
  rcases strBytes_lead bytes with low | ⟨lead, c, cs, more, low, high⟩
  · -- the first byte is the length of a plain string
    have cut := plain low
    have length : len = (strBytes value).length := by
      rw [← cut, length_take, min_eq_left inside]
    by_cases short : v.toNat < 127
    · rw [cons_append, decodeInteger_of_short (by omega)] at number
      obtain ⟨rfl, rfl⟩ := number
      rw [length, bytes] at cut
      obtain ⟨after, follows⟩ := eq_of_take_shifted cut
      have := starts v after follows
      omega
    · rw [cons_append, decodeInteger_of_long (by omega)] at number
      have := le_of_decodeContinuation (bound y (by simp)) number
      omega
  · -- the first byte is the length of a compressed string
    have small := bound v (by simp)
    rw [cons_append, decodeInteger_of_short (by omega)] at number
    obtain ⟨rfl, rfl⟩ := number
    have symbols := compressed (by omega)
    obtain ⟨n, size⟩ : ∃ n, v.toNat % 2 ^ 7 = n + 1 := ⟨v.toNat % 2 ^ 7 - 1, by omega⟩
    rw [more, size, bytes] at symbols
    obtain ⟨sym, tail, same, small⟩ := head_huffmanDecode low high symbols
    obtain ⟨rfl, -⟩ := cons.inj same
    omega

/-- A value of 127 bytes or more is not read from the second byte of its length on. -/
theorem decodeString_after_length {value : String} (least : 127 ≤ (strBytes value).length)
    (most : (strBytes value).length < 2 ^ 20) (starts : StartsHeader rest) :
    decodeString (encodeContinuation ((strBytes value).length - 127) ++
      (strBytes value ++ rest)) ≠ .ok value rest' := by
  intro decoded
  obtain ⟨b, tail, len, src, first, number, inside, plain, compressed⟩ :=
    decodeString_eq_ok decoded
  rw [first] at number
  rw [encodeContinuation] at first
  split at first
  · -- the high bit of the length makes the string a compressed one, which is too short
    rw [and_seven, cons_append] at first
    obtain ⟨rfl, rfl⟩ := cons.inj first
    have low := @low_bits_or 7 (((strBytes value).length - 127) % 128) 0x80 (by decide)
      (by omega) (by omega)
    rw [and_two_pow_sub_one_eq_mod] at low
    have high : 128 ≤ (0x80 ||| ofNat (((strBytes value).length - 127) % 128)).toNat := by
      exact left_le_or
    have budget := length_huffmanDecode (compressed high)
    rw [length_take] at budget
    by_cases short : ((strBytes value).length - 127) % 128 < 127
    · rw [decodeInteger_of_short (by omega)] at number
      simp only [EStateM.Result.ok.injEq] at number
      omega
    · rw [decodeInteger_of_long (by omega),
        (decodeContinuation_encodeContinuation (by omega)).1] at number
      simp only [EStateM.Result.ok.injEq] at number
      omega
  · -- the length is the length of a plain string
    rw [singleton_append] at first
    obtain ⟨rfl, rfl⟩ := cons.inj first
    have byte := @toNat_ofNat_of_lt ((strBytes value).length - 127) (by omega)
    have cut := plain (by omega)
    have length : len = (strBytes value).length := by
      rw [← cut, length_take, min_eq_left inside]
    by_cases short : (strBytes value).length - 127 < 127
    · rw [decodeInteger_of_short (by omega)] at number
      simp only [EStateM.Result.ok.injEq] at number
      omega
    rw [decodeInteger_of_long (by omega)] at number
    obtain ⟨v, vs, bytes⟩ := exists_cons_of_length_pos (lt_of_lt_of_le (by decide) least)
    have valid : v.toNat < 0xF8 := strBytes_lt (bytes ▸ mem_cons_self)
    rw [bytes, cons_append] at number
    by_cases single : v.toNat < 128
    · rw [decodeContinuation_of_low (by decide) (by decide) single] at number
      obtain ⟨total, rfl⟩ := number
      rw [length, bytes] at cut
      obtain ⟨after, follows⟩ := eq_of_take_shifted cut
      have := starts v after follows
      omega
    · rw [decodeContinuation_of_high (by decide) (by decide) (by omega)] at number
      have := decodeContinuation_mod (by decide) number
      omega

/-- The three names whose index is cut to 15 have an empty value in the static table, and do
not occur again in the next fifteen entries. -/
theorem static_fifteen {idx : ℕ} {entry : Header} (there : hpackStatic[idx]? = some entry)
    (cut : (idx + 1) % 16 = 15) : entry.2 = "" ∧
      ∀ j, 15 ≤ j → j < 30 → ∀ other, hpackStatic[j]? = some other → other.1 ≠ entry.1 := by
  obtain ⟨inside, rfl⟩ := List.getElem?_eq_some_iff.mp there
  have all : ∀ i : Fin 61, (i.val + 1) % 16 = 15 → (hpackStatic.get i).2 = "" ∧
      ∀ j : Fin 61, 15 ≤ j.val → j.val < 30 → (hpackStatic.get j).1 ≠ (hpackStatic.get i).1 := by
    decide +kernel
  obtain ⟨empty, distinct⟩ := all ⟨idx, inside⟩ cut
  refine ⟨empty, fun j least most other there' => ?_⟩
  obtain ⟨inside', rfl⟩ := List.getElem?_eq_some_iff.mp there'
  exact distinct ⟨j, inside'⟩ least most

namespace HpackDecoder

variable {d : HpackDecoder} {header : Header} {headers : List Header}

theorem literal_eq_ok {rest : List UInt8}
    (decoded : d.literal n src = .ok header rest) :
    ∃ idx src₁ src₂, decodeInteger n src = .ok idx src₁ ∧
      d.literalName idx src₁ = .ok header.1 src₂ ∧ decodeString src₂ = .ok header.2 rest := by
  obtain ⟨idx, src₁, number, decoded⟩ := bind_eq_ok_iff.mp decoded
  obtain ⟨name, src₂, named, decoded⟩ := bind_eq_ok_iff.mp decoded
  obtain ⟨value, src₃, text, done⟩ := bind_eq_ok_iff.mp decoded
  cases done
  exact ⟨idx, src₁, src₂, number, named, text⟩

theorem literalName_eq_ok {idx : ℕ} {rest : List UInt8} {name : String} (pos : 0 < idx)
    (named : d.literalName idx src = .ok name rest) :
    rest = src ∧ ∃ entry, d.lookup idx = some entry ∧ entry.1 = name := by
  rw [literalName, if_neg (by omega)] at named
  obtain ⟨entry, src', found, done⟩ := bind_eq_ok_iff.mp named
  obtain ⟨there, rfl⟩ := orThrow_eq_ok_iff.mp found
  cases done
  exact ⟨rfl, entry, there, rfl⟩

/-- An index cut to 15 runs on into the value. -/
theorem literal_fifteen {idx : ℕ} (absent : header ∉ hpackStatic)
    (named : nameIndex header.1 = some idx) (cut : (idx + 1) % 16 = 15)
    (short : (strBytes header.2).length < 2 ^ 20) {rest : List UInt8} (starts : StartsHeader rest) :
    d.literal 4 (15 :: (encodeString header.2 ++ rest)) ≠ .ok header rest' := by
  intro decoded
  obtain ⟨entry, there, same, -, -⟩ := findIdx_static named
  rw [decide_eq_true_eq] at same
  obtain ⟨empty, distinct⟩ := static_fifteen there cut
  obtain ⟨index, src₁, src₂, number, name, text⟩ := literal_eq_ok decoded
  rw [decodeInteger_of_long (by decide), encodeString, encodeInteger, append_assoc] at number
  split at number
  · rename_i brief
    have byte := @toNat_ofNat_of_lt (strBytes header.2).length (by omega)
    rw [singleton_append, UInt8.zero_or,
      decodeContinuation_of_low (by decide) (by decide) (by omega)] at number
    obtain ⟨rfl, rfl⟩ := number
    obtain ⟨rfl, other, found, same'⟩ := literalName_eq_ok (by omega) name
    by_cases long : 16 ≤ (strBytes header.2).length
    · exact decodeString_shifted long brief starts text
    -- the length picks one of the entries 16 to 30, or it is zero
    by_cases none : (strBytes header.2).length = 0
    · have blank := eq_empty_of_strBytes (length_eq_zero_iff.mp none)
      have whole : header = entry := Prod.ext same.symm (blank.trans empty.symm)
      exact absent (whole ▸ mem_of_getElem? there)
    · rw [lookup, if_neg (by omega), if_pos (by rw [length_hpackStatic]; omega)] at found
      exact distinct _ (by omega) (by omega) other found (same'.trans same.symm)
  · rename_i long
    rw [cons_append, decodeContinuation_of_low (by decide) (by decide) (by decide)] at number
    obtain ⟨rfl, rfl⟩ := number
    obtain ⟨rfl, -⟩ := literalName_eq_ok (by omega) name
    exact decodeString_after_length (by omega) short starts text

/-- Whatever comes after it, a header that is not representable is not read back, unless its
value is its own name. In that case it is not read back from the end of a block. -/
theorem representation_misread (bad : ¬ Representable header) (short : Short header)
    {rest : List UInt8} (starts : StartsHeader rest) (unlike : header.1 ≠ header.2 ∨ rest = []) :
    ∃ b tail, hpackEncodeHeader header ++ rest = b :: tail ∧
      ∀ d' pushed rest', d.representation b (b :: tail) = .ok (d', pushed) rest' →
        ∃ other, pushed = [other] ∧ other ≠ header := by
  obtain ⟨absent, idx, named, large⟩ : header ∉ hpackStatic ∧
      ∃ idx, nameIndex header.1 = some idx ∧ 15 ≤ idx + 1 := by
    simpa [Representable] using bad
  have long : 2 ^ 20 ≤ 2 ^ 64 := by decide
  have form : hpackEncodeHeader header = .ofNat ((idx + 1) % 16) :: encodeString header.2 := by
    rcases hpackEncodeHeader_cases header with
      ⟨_, there, -⟩ | ⟨-, idx', named', form⟩ | ⟨-, unnamed, -⟩
    · exact absurd (mem_of_getElem? there) absent
    · cases named.symm.trans named'
      exact form
    · cases named.symm.trans unnamed
  refine ⟨_, _, by rw [form, cons_append], fun d' pushed rest' decoded => ?_⟩
  have byte : (ofNat ((idx + 1) % 16)).toNat = (idx + 1) % 16 :=
    toNat_ofNat_of_lt (by omega)
  rw [representation_literal (by omega)] at decoded
  obtain ⟨other, src, read, done⟩ := bind_eq_ok_iff.mp decoded
  cases done
  refine ⟨other, rfl, ?_⟩
  rintro rfl
  by_cases fifteen : (idx + 1) % 16 = 15
  · rw [fifteen] at read
    exact literal_fifteen absent named fifteen short.2 starts read
  obtain ⟨index, src₁, src₂, number, name, text⟩ := literal_eq_ok read
  rw [decodeInteger_of_short (by omega)] at number
  obtain ⟨rfl, rfl⟩ := number
  rw [mod_eq_of_lt (by omega), byte] at name
  by_cases zero : (idx + 1) % 16 = 0
  · -- the value is read as the name, and what follows as the value
    rw [zero, literalName, if_pos rfl,
      decodeString_encodeString (lt_of_lt_of_le short.2 long)] at name
    simp only [EStateM.Result.ok.injEq] at name
    obtain ⟨same, rfl⟩ := name
    rcases unlike with unlike | rfl
    · exact unlike same.symm
    · cases text
  · -- an earlier entry of the table gives another name
    obtain ⟨entry, -, -, inside, earlier⟩ := findIdx_static named
    obtain ⟨-, other', found, same⟩ := literalName_eq_ok (by omega) name
    rw [lookup, if_neg zero, if_pos (by rw [length_hpackStatic]; omega)] at found
    exact earlier _ (by omega) other' found (decide_eq_true same)

/-! ## Header blocks -/

theorem decodeFrom_of_ok {pushed : List Header} {tail : List UInt8}
    (read : d.representation b (b :: tail) = .ok (d', pushed) src) :
    d.decodeFrom headers (b :: tail) = d'.decodeFrom (headers ++ pushed) src := by
  rw [decodeFrom]
  split
  · rename_i again
    cases again.symm.trans read
    rfl
  · rename_i failed
    cases failed.symm.trans read

theorem decodeFrom_keeps {out : List Header}
    (decoded : d.decodeFrom headers src = .ok out d') : ∃ more, out = headers ++ more := by
  fun_induction decodeFrom d headers src with
  | case1 d headers =>
    cases decoded
    exact ⟨[], (append_nil _).symm⟩
  | case2 d headers b rest d₁ pushed src' read ih =>
    obtain ⟨more, later⟩ := ih decoded
    exact ⟨pushed ++ more, by rw [later, append_assoc]⟩
  | case3 => cases decoded

theorem decodeFrom_encodeHeaders (good : ∀ h ∈ headers, Representable h)
    (short : ∀ h ∈ headers, Short h) (before : List Header) (rest : List UInt8) :
    d.decodeFrom before (encodeHeaders headers ++ rest) =
      d.decodeFrom (before ++ headers) rest := by
  induction headers generalizing before with
  | nil => simp [encodeHeaders]
  | cons header headers ih =>
    obtain ⟨b, tail, bytes, read⟩ := representation_encode (good header mem_cons_self)
      (short header mem_cons_self) d (encodeHeaders headers ++ rest)
    rw [encodeHeaders, flatMap_cons, append_assoc]
    rw [encodeHeaders] at bytes
    rw [bytes, decodeFrom_of_ok read]
    have later := ih (fun h mem => good h (mem_cons_of_mem _ mem))
      (fun h mem => short h (mem_cons_of_mem _ mem)) (before ++ [header])
    rwa [append_assoc] at later

/-- The decoder reads the encoded headers back. -/
def RoundTrips (d : HpackDecoder) (headers : List Header) : Prop :=
  ∃ d', decode (encodeHeaders headers) d = .ok headers d'

theorem roundTrips_of_representable (good : ∀ h ∈ headers, Representable h)
    (short : ∀ h ∈ headers, Short h) : d.RoundTrips headers := by
  refine ⟨d, ?_⟩
  have whole := @decodeFrom_encodeHeaders d headers good short [] []
  rw [append_nil, nil_append] at whole
  rw [decode, whole, decodeFrom]

/-- A block is not read back if its first header without a representation is misread. -/
theorem not_roundTrips {before after : List Header} (good : ∀ h ∈ before, Representable h)
    (bad : ¬ Representable header) (short : ∀ h ∈ before ++ header :: after, Short h)
    (unlike : header.1 ≠ header.2 ∨ after = []) : ¬ d.RoundTrips (before ++ header :: after) := by
  rintro ⟨d', decoded⟩
  have shortBefore : ∀ h ∈ before, Short h := fun h mem =>
    short h (mem_append_left _ mem)
  obtain ⟨b, tail, bytes, misread⟩ := @representation_misread d header bad
    (short header (mem_append_right _ mem_cons_self)) (encodeHeaders after)
    (startsHeader_encodeHeaders after) (unlike.imp_right (by rintro rfl; rfl))
  rw [decode, encodeHeaders, flatMap_append, flatMap_cons] at decoded
  rw [encodeHeaders] at bytes
  have start := @decodeFrom_encodeHeaders d before good shortBefore [] (b :: tail)
  rw [encodeHeaders, nil_append] at start
  rw [bytes, start] at decoded
  cases read : d.representation b (b :: tail) with
  | error e src =>
    rw [decodeFrom] at decoded
    split at decoded
    · rename_i again
      cases again.symm.trans read
    · cases decoded
  | ok result src =>
    obtain ⟨d₁, pushed⟩ := result
    obtain ⟨other, rfl, differs⟩ := misread d₁ pushed src read
    rw [decodeFrom_of_ok read] at decoded
    obtain ⟨more, out⟩ := decodeFrom_keeps decoded
    rw [append_assoc, singleton_append, append_cancel_left_eq, cons.injEq] at out
    exact differs out.1.symm

end HpackDecoder

/-- The headers before the first one without a representation. -/
theorem exists_first_bad {headers : List Header} (bad : ¬ ∀ h ∈ headers, Representable h) :
    ∃ before header after, headers = before ++ header :: after ∧
      (∀ h ∈ before, Representable h) ∧ ¬ Representable header := by
  obtain ⟨header, found⟩ : ∃ header, headers.find? (¬ Representable ·) = some header := by
    rw [← Option.isSome_iff_exists]
    simpa using bad
  obtain ⟨holds, before, after, whole, earlier⟩ := find?_eq_some_iff_append.mp found
  exact ⟨before, header, after, whole, by simpa using earlier, by simpa using holds⟩

/-- Headers sent one after another are read back, after each of them and by every decoder,
exactly when all of them are representable. If no value repeats its name then this already
holds for the block as a whole. -/
theorem roundTrips_iff_representable (headers : List Header) (short : ∀ h ∈ headers, Short h)
    (d : HpackDecoder) :
    ((∀ start, start <+: headers → d.RoundTrips start) ↔ ∀ h ∈ headers, Representable h) ∧
    ((∀ h ∈ headers, h.1 ≠ h.2) → (d.RoundTrips headers ↔ ∀ h ∈ headers, Representable h)) := by
  refine ⟨⟨fun every => ?_, fun good start begins => ?_⟩, fun unlike => ⟨fun trips => ?_, ?_⟩⟩
  · by_contra bad
    obtain ⟨before, header, after, rfl, good, worst⟩ := exists_first_bad bad
    have begins : before ++ [header] <+: before ++ header :: after := by simp
    exact not_roundTrips good worst (fun h mem => short h (begins.subset mem)) (.inr rfl)
      (every _ begins)
  · exact roundTrips_of_representable (fun h mem => good h (begins.subset mem))
      (fun h mem => short h (begins.subset mem))
  · by_contra bad
    obtain ⟨before, header, after, rfl, good, worst⟩ := exists_first_bad bad
    have differs := unlike header (mem_append_right _ mem_cons_self)
    exact not_roundTrips good worst short (.inl differs) trips
  · exact fun good => roundTrips_of_representable good short

theorem roundTrips_get_request :
    (∀ start, start <+: [(":method", "GET"), (":path", "/a"), ("x", "y")] →
      new.RoundTrips start) ∧
    new.RoundTrips [(":method", "GET"), (":path", "/a"), ("x", "y")] := by
  have short : ∀ h ∈ [(":method", "GET"), (":path", "/a"), ("x", "y")], Short h := by
    simp only [Short]
    decide
  have good : ∀ h ∈ [(":method", "GET"), (":path", "/a"), ("x", "y")], Representable h := by
    decide
  have both := roundTrips_iff_representable _ short new
  exact ⟨both.1.mpr good, (both.2 (by decide)).mpr good⟩

/-- The name `host` has index 38, of which the encoder keeps 6, the index of `:scheme`. -/
theorem host_not_roundTrips : ¬ ∀ headers : List Header, (∀ h ∈ headers, Short h) →
    ∀ d : HpackDecoder, d.RoundTrips headers := by
  intro every
  have short : ∀ h ∈ ([] ++ [("host", "a")] : List Header), Short h := by
    simp only [Short]
    decide
  exact not_roundTrips (by simp) (by decide) short (.inr rfl)
    (every _ short new)

end SmartOs.Net.Hpack
