/-
# What the decoder accepts

`Yields` is the partial-correctness judgement for decoding steps: a step that succeeds
leaves the decoder some number of bytes further on, at the same depth, and its result
satisfies a property of that number. `decodeValue_yields` derives from it that a
decoded value contains no extension, has lengths that fit in a `u32`, respects the
depth limit, and has a wire form no longer than the bytes it was read from.

Because a successful call restores the depth, unrolling the recursion further than the
depth limit changes nothing, which gives the recursive equation `decodeValue_eq`.
-/

import SmartOs.SmartPack.Decode
import SmartOs.SmartPack.Encode

namespace SmartOs.SmartPack

open SmartOs.CS SmartOs.Math List Decoder

variable {α β : Type}

/-- Whenever `x` succeeds it moves the decoder forward inside its data, and the starting
depth, the result and the number of bytes consumed satisfy `post`. -/
def Yields (x : DecodeM α) (post : ℕ → α → ℕ → Prop) : Prop :=
  ∀ d a d', x d = .ok a d' →
    ∃ n, d' = d.advance n ∧ (d.pos ≤ d.data.length → d.pos + n ≤ d.data.length) ∧
      post d.depth a n

variable {mid : ℕ → α → ℕ → Prop} {f : α → DecodeM β} {c : Prop}

namespace Yields

variable {post : ℕ → α → ℕ → Prop} {x : DecodeM α}

theorem pure {a : α} (h : ∀ depth, post depth a 0) : Yields (pure a) post := by
  intro d b d' ok
  obtain ⟨rfl, rfl⟩ := pure_eq_ok_iff.mp ok
  exact ⟨0, rfl, fun inside => by simpa using inside, h _⟩

theorem throw {e : DecodeError} : Yields (throw e) post := by
  intro d a d' ok
  cases ok

theorem bind {post : ℕ → β → ℕ → Prop} (first : Yields x mid)
    (second : ∀ depth a m, mid depth a m → Yields (f a) fun depth' b n => depth' = depth → post
      depth b (m + n)) : Yields (x >>= f) post := by
  intro d b d'' ok
  obtain ⟨a, d', hx, hf⟩ := bind_eq_ok_iff.mp ok
  obtain ⟨m, rfl, insideFirst, hmid⟩ := first d a d' hx
  obtain ⟨n, rfl, insideSecond, hpost⟩ := second _ a m hmid _ b d'' hf
  refine ⟨m + n, by rw [advance_advance], fun inside => ?_, hpost rfl⟩
  have := insideSecond (insideFirst inside)
  simp only [advance_pos, advance_data] at this
  omega

theorem mono {post' : ℕ → α → ℕ → Prop} (h : Yields x post)
    (weaker : ∀ depth a n, post depth a n → post' depth a n) : Yields x post' := by
  intro d a d' ok
  obtain ⟨n, moved, inside, hpost⟩ := h d a d' ok
  exact ⟨n, moved, inside, weaker _ _ _ hpost⟩

theorem map {f : α → β} {post : ℕ → β → ℕ → Prop} (h : Yields x mid)
    (image : ∀ depth a n, mid depth a n → post depth (f a) n) :
    Yields (do return f (← x)) post := by
  refine h.bind fun depth a m hmid => pure fun depth' same => ?_
  exact image depth a m hmid

theorem ite [Decidable c] {y : DecodeM α} (yes : c → Yields x post)
    (no : Yields y post) : Yields (if c then x else y) post := by
  split
  next h => exact yes h
  · exact no

end Yields

theorem pushDepth_apply (d : Decoder) : pushDepth d =
      if d.depth + 1 > maxDepth then .error .depthLimitExceeded { d with depth := d.depth + 1 }
      else .ok () { d with depth := d.depth + 1 } := by
  simp only [pushDepth, bind_of_ok (modify_apply _ _), get_bind_apply]
  split_ifs <;> rfl

/-- Both container decoders run their loop one level deeper and come back. -/
theorem Yields.nested {x : DecodeM α} {f : α → β} {post : ℕ → β → ℕ → Prop} (inner : Yields x mid)
    (image : ∀ depth a n, depth + 1 ≤ maxDepth → mid (depth + 1) a n → post depth (f a) n) :
    Yields (do pushDepth; let a ← x; popDepth; return f a) post := by
  intro d b d'' ok
  obtain ⟨_, d₁, pushed, ok⟩ := bind_eq_ok_iff.mp ok
  rw [pushDepth_apply] at pushed
  by_cases deep : d.depth + 1 > maxDepth
  · rw [if_pos deep] at pushed
    cases pushed
  rw [if_neg deep] at pushed
  cases pushed
  -- the loop keeps the raised depth, so lowering it again restores the old one
  obtain ⟨a, d₂, hx, ok⟩ := bind_eq_ok_iff.mp ok
  obtain ⟨n, rfl, inside, hmid⟩ := inner _ a d₂ hx
  cases ok
  exact ⟨n, rfl, inside, image _ _ _ (by omega) hmid⟩

theorem readByte_yields : Yields readByte fun _ _ n => n = 1 := by
  intro d b d' ok
  obtain ⟨head, rfl⟩ := readByte_eq_ok_iff.mp ok
  refine ⟨1, rfl, fun _ => ?_, rfl⟩
  -- there was a byte to read
  have : d.rest ≠ [] := by
    intro empty
    rw [empty] at head
    cases head
  have := length_pos_of_ne_nil this
  rw [length_rest] at this
  omega

theorem readBytes_yields (n : ℕ) :
    Yields (readBytes n) fun _ bytes m => m = n ∧ bytes.length = n := by
  intro d bytes d' ok
  obtain ⟨room, rfl, rfl⟩ := readBytes_eq_ok_iff.mp ok
  refine ⟨n, rfl, fun _ => room, rfl, ?_⟩
  rw [length_take, length_rest]
  omega

theorem readU16Le_yields : Yields readU16Le fun _ _ n => n = 2 :=
  (readBytes_yields 2).map fun _ _ _ h => h.1

theorem readU32Le_yields : Yields readU32Le fun _ _ n => n = 4 :=
  (readBytes_yields 4).map fun _ _ _ h => h.1

theorem readU64Le_yields : Yields readU64Le fun _ _ n => n = 8 :=
  (readBytes_yields 8).map fun _ _ _ h => h.1

theorem readU128Le_yields : Yields readU128Le fun _ _ n => n = 16 :=
  (readBytes_yields 16).map fun _ _ _ h => h.1

/-! ## The wire form is the shortest form -/

/-- An integer that fits an explicit width takes at most that many bytes and a tag. -/
theorem wireInt_length_le {n : ℤ} {width : ℕ}
    (explicit : width = 1 ∨ width = 2 ∨ width = 4 ∨ width = 8)
    (low : -2 ^ (8 * width - 1) ≤ n) (high : n < 2 ^ (8 * width)) :
    (wireInt n).length ≤ width + 1 := by
  unfold wireInt wireUint
  rcases explicit with rfl | rfl | rfl | rfl <;> split_ifs <;> first | omega | simp

theorem wireInt_length_le_seventeen (n : ℤ) : (wireInt n).length ≤ 17 := by
  unfold wireInt wireUint
  split_ifs <;> simp

theorem wireInt_length_eq_one {n : ℤ} (low : -12 ≤ n) (high : n < 2 ^ 7) :
    (wireInt n).length = 1 := by
  unfold wireInt wireUint
  split_ifs <;> first | omega | simp

namespace LengthForm

variable (form : LengthForm)

theorem wire_length_inline {len : ℕ} (inline : len ≤ form.maxLen.toNat) :
    (form.wire len).length = 1 := by
  simp [wire, inline]

/-- A length that fits an explicit width takes at most that many bytes and a tag. -/
theorem wire_length_le {len width : ℕ} (explicit : width = 1 ∨ width = 2 ∨ width = 4)
    (fits : len < 2 ^ (8 * width)) : (form.wire len).length ≤ width + 1 := by
  unfold wire
  rcases explicit with rfl | rfl | rfl <;> split_ifs <;> first | omega | simp

/-- An inline tag is `base` plus its length, without wrapping around. -/
theorem inline_length {tag : UInt8} (low : form.base ≤ tag) (high : tag ≤ form.base + form.maxLen) :
    (tag - form.base).toNat = tag.toNat - form.base.toNat ∧
      tag.toNat ≤ form.base.toNat + form.maxLen.toNat := by
  have room := form.inline_lt
  have tag8 := form.tag8.toNat_lt
  rw [UInt8.le_iff_toNat_le] at low high
  rw [UInt8.toNat_add, Nat.mod_eq_of_lt (by omega)] at high
  refine ⟨?_, high⟩
  rw [UInt8.toNat_sub_of_le _ _ (UInt8.le_iff_toNat_le.mpr low)]

/-- A header read with its tag is no shorter than the header the encoder would write. -/
theorem readLength_yields (tag : UInt8) : Yields (form.readLength tag) fun _ len n =>
      len < 2 ^ 32 ∧ (form.wire len).length ≤ n + 1 := by
  unfold readLength
  split_ifs with inline h8 h16
  · refine Yields.pure fun _ => ?_
    obtain ⟨length, high⟩ := form.inline_length inline.1 inline.2
    rw [length]
    have small : tag.toNat - form.base.toNat ≤ form.maxLen.toNat := by omega
    have byte := form.maxLen.toNat_lt
    rw [form.wire_length_inline small]
    omega
  · refine readByte_yields.map fun _ len n consumed => ?_
    have := form.wire_length_le (.inl rfl) len.toNat_lt
    have := len.toNat_lt
    omega
  · refine readU16Le_yields.map fun _ len n consumed => ?_
    have := form.wire_length_le (.inr (.inl rfl)) len.toNat_lt
    have := len.toNat_lt
    omega
  · refine readU32Le_yields.map fun _ len n consumed => ?_
    have := form.wire_length_le (.inr (.inr rfl)) len.toNat_lt
    have := len.toNat_lt
    omega

end LengthForm

/-! ## Accepted values -/

/-- What is known of a value decoded at `depth` from `n` bytes. -/
structure Accepted (depth : ℕ) (v : Value) (n : ℕ) : Prop where
  wire_le : v.wire.length ≤ n
  fits : v.LengthsFit
  noExtension : v.NoExtension
  depth_le : v.depth = 0 ∨ depth + v.depth ≤ maxDepth

variable {depth n m : ℕ} {v : Value}

theorem Accepted.mono (h : Accepted depth v m) (le : m ≤ n) : Accepted depth v n :=
  ⟨h.wire_le.trans le, h.fits, h.noExtension, h.depth_le⟩

/-- What is known of the elements decoded inside an array. -/
structure AcceptedItems (depth : ℕ) (items : List Value) (n : ℕ) : Prop where
  wire_le : (Value.wireItems items).length ≤ n
  fits : Value.AllItems Value.LengthFits items
  noExtension : Value.AllItems Value.NotExtension items
  depth_le : Value.depthItems items = 0 ∨ depth + Value.depthItems items ≤ maxDepth

/-- What is known of the pairs decoded inside a map. -/
structure AcceptedPairs (depth : ℕ) (pairs : List (Value × Value)) (n : ℕ) : Prop where
  wire_le : (Value.wirePairs pairs).length ≤ n
  fits : Value.AllPairs Value.LengthFits pairs
  noExtension : Value.AllPairs Value.NotExtension pairs
  depth_le : Value.depthPairs pairs = 0 ∨ depth + Value.depthPairs pairs ≤ maxDepth

section Body

variable {self : DecodeM Value}

section

variable (accepts : Yields self Accepted)
include accepts

variable (count : ℕ)

theorem decodeItems_yields : Yields (decodeItems self count) fun depth items n =>
      items.length = count ∧ AcceptedItems depth items n := by
  induction count with
  | zero => exact Yields.pure fun _ => ⟨rfl, ⟨le_rfl, trivial, trivial, .inl rfl⟩⟩
  | succ count ih =>
    refine accepts.bind fun depth item m hitem => ih.map fun depth' items n hitems same => ?_
    obtain ⟨length, hitems⟩ := hitems
    -- the items behind the first one are read at the same depth
    refine ⟨by simp [length], ⟨?_, ⟨hitem.fits, hitems.fits⟩,
      ⟨hitem.noExtension, hitems.noExtension⟩, ?_⟩⟩
    · have := hitem.wire_le
      have := hitems.wire_le
      simp only [Value.wireItems, length_append]
      omega
    · have := hitem.depth_le
      have := hitems.depth_le
      simp only [Value.depthItems]
      omega

theorem decodePairs_yields : Yields (decodePairs self count) fun depth pairs n =>
      pairs.length = count ∧ AcceptedPairs depth pairs n := by
  induction count with
  | zero => exact Yields.pure fun _ => ⟨rfl, ⟨le_rfl, trivial, trivial, .inl rfl⟩⟩
  | succ count ih =>
    refine accepts.bind fun depth key m hkey => accepts.bind fun depth' value n hvalue =>
      ih.map fun depth'' pairs k hpairs same same' => ?_
    obtain ⟨length, hpairs⟩ := hpairs
    refine ⟨by simp [length], ⟨?_, ⟨hkey.fits, hvalue.fits, hpairs.fits⟩,
      ⟨hkey.noExtension, hvalue.noExtension, hpairs.noExtension⟩, ?_⟩⟩
    · have := hkey.wire_le
      have := hvalue.wire_le
      have := hpairs.wire_le
      simp only [Value.wirePairs, length_append]
      omega
    · have := hkey.depth_le
      have := hvalue.depth_le
      have := hpairs.depth_le
      simp only [Value.depthPairs]
      omega

theorem decodeArrayValues_yields :
    Yields (decodeArrayValues self count) fun depth v n => count < 2 ^ 32 →
      Accepted depth v (n + (arrayForm.wire count).length) := by
  refine (decodeItems_yields accepts count).nested fun depth items n room hitems small => ?_
  obtain ⟨rfl, hitems⟩ := hitems
  refine ⟨?_, ⟨small, hitems.fits⟩, ⟨trivial, hitems.noExtension⟩, ?_⟩
  · have := hitems.wire_le
    simp only [Value.wire, length_append]
    omega
  · have := hitems.depth_le
    simp only [Value.depth]
    omega

theorem decodeMapValues_yields :
    Yields (decodeMapValues self count) fun depth v n => count < 2 ^ 32 →
      Accepted depth v (n + (mapForm.wire count).length) := by
  refine (decodePairs_yields accepts count).nested fun depth pairs n room hpairs small => ?_
  obtain ⟨rfl, hpairs⟩ := hpairs
  refine ⟨?_, ⟨small, hpairs.fits⟩, ⟨trivial, hpairs.noExtension⟩, ?_⟩
  · have := hpairs.wire_le
    simp only [Value.wire, length_append]
    omega
  · have := hpairs.depth_le
    simp only [Value.depth]
    omega

end

/-- A scalar is accepted at any depth: nothing but its wire length is at stake. -/
theorem Accepted.of_number {i : ℤ} (number : v.number? = some i)
    (wire_le : (wireInt i).length ≤ n) : Accepted depth v n := by
  rw [← Value.wire_of_number? number] at wire_le
  cases v <;> first
    | exact ⟨wire_le, trivial, trivial, .inl rfl⟩
    | cases number

theorem Accepted.of_width {i : ℤ} (consumed : m = n) (number : v.number? = some i)
    (explicit : n = 1 ∨ n = 2 ∨ n = 4 ∨ n = 8) (range : -2 ^ (8 * n - 1) ≤ i ∧ i < 2 ^ (8 * n)) :
    Accepted depth v (m + 1) :=
  .of_number number (consumed ▸ wireInt_length_le explicit range.1 range.2)

theorem negFixint_toInt {tag : UInt8} (low : tag ≥ negFixintBase) (high : tag ≤ negFixintMax) :
    (-(tag - negFixintBase).toInt8 - 1).toInt = -(tag.toNat - negFixintBase.toNat : ℤ) - 1 := by
  have inline : ∀ k : Fin 12, (-(UInt8.ofNat (k + 0x90) - negFixintBase).toInt8 - 1).toInt =
      -((UInt8.ofNat (k + 0x90)).toNat - negFixintBase.toNat : ℤ) - 1 := by decide
  have low' : 0x90 ≤ tag.toNat := UInt8.le_iff_toNat_le.mp low
  have high' : tag.toNat ≤ 0x9B := UInt8.le_iff_toNat_le.mp high
  have shifted := inline ⟨tag.toNat - 0x90, by omega⟩
  rwa [Nat.sub_add_cancel low', UInt8.ofNat_toNat] at shifted

theorem readStr_yields (len : ℕ) :
    Yields (readStr len) fun _ s n => n = len ∧ (strBytes s).length = len := by
  refine (readBytes_yields len).bind fun _ bytes m hbytes => ?_
  obtain ⟨rfl, length⟩ := hbytes
  cases valid : fromUtf8 bytes with
  | none => exact Yields.throw
  | some s =>
    refine Yields.pure fun _ _ => ⟨rfl, ?_⟩
    rw [strBytes_of_fromUtf8 valid, length]

theorem readUuid_yields : Yields readUuid fun depth v n => Accepted depth v (n + 1) := by
  refine (readBytes_yields 16).bind fun depth bytes m hbytes => ?_
  rw [dif_pos hbytes.2]
  refine Yields.pure fun _ _ => ⟨?_, trivial, trivial, .inl rfl⟩
  simp [Value.wire, hbytes]

/-- A dispatch that consumes `n` bytes after the tag yields a value accepted from `n + 1`. -/
theorem decodeTag_yields (accepts : Yields self Accepted) (tag : UInt8) :
    Yields (decodeTag self tag) fun depth v n => Accepted depth v (n + 1) := by
  refine .ite (fun fixint => .pure fun _ => ?_) <|
    .ite (fun _ => readByte_yields.map fun _ v n consumed => ?_) <|
    .ite (fun _ => readU16Le_yields.map fun _ v n consumed => ?_) <|
    .ite (fun _ => readU32Le_yields.map fun _ v n consumed => ?_) <|
    .ite (fun _ => readU64Le_yields.map fun _ v n consumed => ?_) <|
    .ite (fun _ => readU128Le_yields.map fun _ v n consumed => ?_) <|
    .ite (fun negfixint => .pure fun _ => ?_) <|
    .ite (fun _ => readByte_yields.map fun _ v n consumed => ?_) <|
    .ite (fun _ => readU16Le_yields.map fun _ v n consumed => ?_) <|
    .ite (fun _ => readU32Le_yields.map fun _ v n consumed => ?_) <|
    .ite (fun _ => readU64Le_yields.map fun _ v n consumed => ?_) <|
    .ite (fun _ => (readBytes_yields 4).map fun _ v n consumed => ?_) <|
    .ite (fun _ => (readBytes_yields 8).map fun _ v n consumed => ?_) <|
    .ite (fun _ => (strForm.readLength_yields tag).bind fun depth len m hlen =>
      (readStr_yields len).map fun _ s n hs same => ?_) <|
    .ite (fun _ => (binForm.readLength_yields tag).bind fun depth len m hlen =>
      (readBytes_yields len).map fun _ b n hs same => ?_) <|
    .ite (fun _ => (arrayForm.readLength_yields tag).bind fun depth count m hcount =>
      (decodeArrayValues_yields accepts count).mono fun _ v n hv same => ?_) <|
    .ite (fun _ => (mapForm.readLength_yields tag).bind fun depth count m hcount =>
      (decodeMapValues_yields accepts count).mono fun _ v n hv same => ?_) <|
    .ite (fun _ => .pure fun _ => ⟨le_rfl, trivial, trivial, .inl rfl⟩) <|
    .ite (fun _ => .pure fun _ => ⟨le_rfl, trivial, trivial, .inl rfl⟩) <|
    .ite (fun _ => .pure fun _ => ⟨le_rfl, trivial, trivial, .inl rfl⟩) <|
    .ite (fun _ => readU64Le_yields.map fun _ v n consumed => ?_) <|
    .ite (fun _ => readUuid_yields) .throw
  -- unsigned integers
  · refine .of_number rfl (wireInt_length_eq_one ?_ ?_).le
    · omega
    · exact_mod_cast Nat.lt_succ_of_le (UInt8.le_iff_toNat_le.mp fixint)
  iterate 4
    · exact .of_width consumed rfl (by simp) (by have := v.toNat_lt; omega)
  · subst consumed
    exact .of_number rfl (wireInt_length_le_seventeen _)
  -- signed integers
  · refine .of_number rfl (wireInt_length_eq_one ?_ ?_).le
    all_goals
      rw [negFixint_toInt negfixint.1 negfixint.2]
      have := UInt8.le_iff_toNat_le.mp negfixint.1
      have := UInt8.le_iff_toNat_le.mp negfixint.2
      have : negFixintMax.toNat = negFixintBase.toNat + 11 := rfl
      omega
  · exact .of_width consumed rfl (by simp) ⟨v.toInt8.le_toInt, v.toInt8.toInt_lt.trans (by decide)⟩
  · exact .of_width consumed rfl (by simp)
      ⟨v.toInt16.le_toInt, v.toInt16.toInt_lt.trans (by decide)⟩
  · exact .of_width consumed rfl (by simp)
      ⟨v.toInt32.le_toInt, v.toInt32.toInt_lt.trans (by decide)⟩
  · exact .of_width consumed rfl (by simp)
      ⟨v.toInt64.le_toInt, v.toInt64.toInt_lt.trans (by decide)⟩
  -- floats
  iterate 2
    · exact ⟨by simp [Value.wire, consumed], trivial, trivial, .inl rfl⟩
  -- strings and binaries
  iterate 2
    · obtain ⟨rfl, length⟩ := hs
      refine ⟨?_, length.trans_lt hlen.1, trivial, .inl rfl⟩
      simp only [Value.wire, length_append, length]
      omega
  -- containers
  iterate 2
    · subst same
      exact (hv hcount.1).mono (by omega)
  -- timestamps
  · exact ⟨by simp [Value.wire, consumed], trivial, trivial, .inl rfl⟩

theorem decodeBody_yields (accepts : Yields self Accepted) : Yields (decodeBody self) Accepted := by
  refine readByte_yields.bind fun depth tag m consumed =>
    (decodeTag_yields accepts tag).mono fun depth' v n hv same => ?_
  subst consumed same
  exact hv.mono (by omega)

end Body

theorem decodeLevels_yields (levels : ℕ) : Yields (decodeLevels levels) Accepted := by
  induction levels with
  | zero => exact decodeBody_yields Yields.throw
  | succ levels ih => exact decodeBody_yields ih

/-- Every decoded value is accepted: no extension, lengths in range, within the depth
limit, and no longer on the wire than the bytes it was read from. -/
theorem decodeValue_yields : Yields decodeValue Accepted := decodeLevels_yields maxDepth

/-! ## The recursive equation of `decode_value` -/

/-- Two computations that agree on every decoder at depth `low` or more. -/
def AgreeFrom (low : ℕ) (x y : DecodeM α) : Prop := ∀ d, low ≤ d.depth → x d = y d

section AgreeFrom

variable {low : ℕ}
variable {x y : DecodeM α}

/-- Sequencing after a step that keeps the depth keeps agreement. -/
theorem AgreeFrom.bind {g : α → DecodeM β} {post : ℕ → α → ℕ → Prop} (keeps : Yields x post)
    (first : AgreeFrom low x y) (second : ∀ a, AgreeFrom low (f a) (g a)) :
    AgreeFrom low (x >>= f) (y >>= g) := by
  intro d deep
  cases hx : x d with
  | error e d' => rw [bind_of_error hx, bind_of_error (first d deep ▸ hx)]
  | ok a d' =>
    obtain ⟨n, rfl, -, -⟩ := keeps d a d' hx
    rw [bind_of_ok hx, bind_of_ok (first d deep ▸ hx)]
    exact second a _ deep

theorem AgreeFrom.ite [Decidable c] {x' y' : DecodeM α} (yes : AgreeFrom low x x')
    (no : AgreeFrom low y y') : AgreeFrom low (if c then x else y) (if c then x' else y') := by
  split_ifs
  · exact yes
  · exact no

theorem AgreeFrom.refl (x : DecodeM α) : AgreeFrom low x x := fun _ _ => rfl

/-- The loop of a container runs one level deeper, so agreement is only needed there, and
not at all once the depth limit is reached. -/
theorem AgreeFrom.nested (deeper : low < maxDepth → AgreeFrom (low + 1) x y) :
    AgreeFrom low (do pushDepth; let a ← x; f a) (do pushDepth; let a ← y; f a) := by
  intro d deep
  by_cases limit : d.depth + 1 > maxDepth
  · have pushed := (pushDepth_apply d).trans (if_pos limit)
    rw [bind_of_error pushed, bind_of_error pushed]
  have pushed := (pushDepth_apply d).trans (if_neg limit)
  rw [bind_of_ok pushed, bind_of_ok pushed]
  have agree := deeper (by omega) { d with depth := d.depth + 1 } (Nat.succ_le_succ deep)
  simp [Bind.bind, EStateM.bind, agree]

variable {self self' : DecodeM Value}

section

variable (accepts : Yields self Accepted)
include accepts

theorem decodeItems_agree (agree : AgreeFrom low self self') (count : ℕ) :
    AgreeFrom low (decodeItems self count) (decodeItems self' count) := by
  induction count with
  | zero => exact .refl _
  | succ count ih =>
    exact .bind accepts agree fun _ =>
      .bind (decodeItems_yields accepts count) ih fun _ => .refl _

theorem decodePairs_agree (agree : AgreeFrom low self self') (count : ℕ) :
    AgreeFrom low (decodePairs self count) (decodePairs self' count) := by
  induction count with
  | zero => exact .refl _
  | succ count ih =>
    exact .bind accepts agree fun _ => .bind accepts agree fun _ =>
      .bind (decodePairs_yields accepts count) ih fun _ => .refl _

/-- The dispatch only calls back from inside a container. -/
theorem decodeTag_agree (agree : low < maxDepth → AgreeFrom (low + 1) self self') (tag : UInt8) :
    AgreeFrom low (decodeTag self tag) (decodeTag self' tag) := by
  -- the branches before arrays and maps do not mention `self`
  iterate 15 refine .ite (.refl _) ?_
  refine .ite (.bind (arrayForm.readLength_yields tag) (.refl _) fun count =>
    .nested fun room => decodeItems_agree accepts (agree room) count) ?_
  refine .ite (.bind (mapForm.readLength_yields tag) (.refl _) fun count =>
    .nested fun room => decodePairs_agree accepts (agree room) count) ?_
  exact .refl _

theorem decodeBody_agree (agree : low < maxDepth → AgreeFrom (low + 1) self self') :
    AgreeFrom low (decodeBody self) (decodeBody self') :=
  .bind readByte_yields (.refl _) fun tag => decodeTag_agree accepts agree tag

end

end AgreeFrom

/-- Unrolling one level more only matters above the depth limit less the levels. -/
theorem decodeLevels_agree (levels : ℕ) :
    AgreeFrom (maxDepth - levels) (decodeLevels levels) (decodeLevels (levels + 1)) := by
  induction levels with
  | zero => exact decodeBody_agree Yields.throw fun room => absurd room (lt_irrefl maxDepth)
  | succ levels ih =>
    refine decodeBody_agree (decodeLevels_yields levels) fun room d deep => ih d ?_
    omega

/-- `decodeValue` satisfies the recursive equation of `Decoder::decode_value`. -/
theorem decodeValue_eq : decodeValue = decodeBody decodeValue := by
  funext d
  have agree := decodeLevels_agree maxDepth
  exact agree d d.depth.zero_le

end SmartOs.SmartPack
