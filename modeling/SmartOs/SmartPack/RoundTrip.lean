/-
# Decoding what was encoded

The wire form of a value, followed by any bytes, decodes to the value with every integer
in its narrowest constructor, and the decoder stops right behind it. Two things can
prevent this: an extension node, whose tag the decoder does not know, and nesting beyond
the depth limit. `decodeValue_decodes` says which of the three outcomes occurs, for every
value whose lengths fit, by one induction over the value.
-/

import Mathlib.Tactic.FinCases
import SmartOs.SmartPack.DecodeSound

namespace SmartOs.SmartPack

open SmartOs.CS SmartOs.Math List Decoder UInt8

variable {α β : Type}

/-! ## Normal forms -/

/-- The narrowest unsigned constructor for a number below `2 ^ 128`. -/
def normUint (n : ℕ) : Value :=
  if n < 2 ^ 8 then .uint8 (.ofNat n)
  else if n < 2 ^ 16 then .uint16 (.ofNat n)
  else if n < 2 ^ 32 then .uint32 (.ofNat n)
  else if n < 2 ^ 64 then .uint64 (.ofNat n)
  else .uint128 (.ofNat 128 n)

/-- The narrowest constructor for a number: unsigned unless it is negative. -/
def normInt (n : ℤ) : Value :=
  if 0 ≤ n then normUint n.toNat
  else if -2 ^ 7 ≤ n then .int8 (.ofInt n)
  else if -2 ^ 15 ≤ n then .int16 (.ofInt n)
  else if -2 ^ 31 ≤ n then .int32 (.ofInt n)
  else .int64 (.ofInt n)

namespace Value

mutual

/-- The value with every integer replaced by the narrowest constructor of its number. -/
def norm : Value → Value
  | .uint8 v => normInt v.toNat
  | .uint16 v => normInt v.toNat
  | .uint32 v => normInt v.toNat
  | .uint64 v => normInt v.toNat
  | .uint128 v => normInt v.toNat
  | .int8 v => normInt v.toInt
  | .int16 v => normInt v.toInt
  | .int32 v => normInt v.toInt
  | .int64 v => normInt v.toInt
  | .array items => .array (normItems items)
  | .map pairs => .map (normPairs pairs)
  | v => v

def normItems : List Value → List Value
  | [] => []
  | item :: items => item.norm :: normItems items

def normPairs : List (Value × Value) → List (Value × Value)
  | [] => []
  | (key, value) :: pairs => (key.norm, value.norm) :: normPairs pairs

end

end Value

/-! ## Reading an announced prefix -/

/-- The decoder is inside its data, and the unread bytes start with `bytes`. -/
def Decoder.StartsWith (d : Decoder) (bytes : List UInt8) : Prop :=
  d.pos ≤ d.data.length ∧ bytes <+: d.rest

variable {second first : List UInt8}

theorem Decoder.startsWith_append {d : Decoder}
    (h : d.StartsWith (first ++ second)) :
    d.StartsWith first ∧ (d.advance first.length).StartsWith second := by
  obtain ⟨inside, tail, split⟩ := h
  rw [append_assoc] at split
  refine ⟨⟨inside, second ++ tail, split⟩, ?_, tail, ?_⟩
  · have total := d.length_rest
    rw [← split, length_append] at total
    simp only [advance_pos, advance_data]
    omega
  · rw [rest_advance, ← split, drop_left]

/-- On any decoder whose unread bytes start with `bytes`, `x` returns `a` and consumes
exactly those bytes. -/
def Reads (bytes : List UInt8) (x : DecodeM α) (a : α) : Prop :=
  ∀ d : Decoder, d.StartsWith bytes → x d = .ok a (d.advance bytes.length)

variable {f : α → DecodeM β} {v : Value} {n : ℕ} {tag : UInt8} {b : β}

namespace Reads

theorem pure (a : α) : Reads [] (pure a) a := fun _ _ => rfl

variable {x : DecodeM α} {a : α}

theorem bind (hx : Reads first x a)
    (hf : Reads second (f a) b) : Reads (first ++ second) (x >>= f) b := by
  intro d starts
  obtain ⟨starts, next⟩ := startsWith_append starts
  rw [bind_of_ok (hx d starts), hf _ next, advance_advance, length_append]

/-- The last read of a sequence is followed by a computation that reads nothing. -/
theorem bindLast {bytes : List UInt8} (hx : Reads bytes x a)
    (hf : Reads [] (f a) b) : Reads bytes (x >>= f) b := by
  rw [← append_nil bytes]
  exact hx.bind hf

theorem map {bytes : List UInt8} (h : Reads bytes x a) (f : α → β) :
    Reads bytes (do return f (← x)) (f a) :=
  h.bindLast (.pure _)

theorem byte (b : UInt8) : Reads [b] readByte b := by
  rintro d ⟨-, tail, split⟩
  refine readByte_eq_ok_iff.mpr ⟨?_, rfl⟩
  rw [← split]
  rfl

theorem bytes (bytes : List UInt8) : Reads bytes (readBytes bytes.length) bytes := by
  rintro d ⟨inside, tail, split⟩
  have total := d.length_rest
  rw [← split, length_append] at total
  refine readBytes_eq_ok_iff.mpr ⟨by omega, ?_, rfl⟩
  rw [← split, take_left]

theorem word (width : ℕ) (fits : n < 256 ^ width) (f : ℕ → β) :
    Reads (toLeBytes width n) (do return f (ofLeBytes (← readBytes width))) (f n) := by
  have raw := (bytes (toLeBytes width n)).map fun bytes => f (ofLeBytes bytes)
  rwa [toLeBytes_length, ofLeBytes_toLeBytes_of_lt fits] at raw

theorem body {self : DecodeM Value} {bytes : List UInt8}
    (h : Reads bytes (decodeTag self tag) v) : Reads (tag :: bytes) (decodeBody self) v :=
  (byte tag).bind h

end Reads

/-! ## Headers -/

variable {form : LengthForm}

namespace LengthForm

/-- A header is a tag of the family followed by what `readLength` expects after it. -/
theorem wire_reads (form : LengthForm) {len : ℕ} (fits : len < 2 ^ 32) :
    ∃ tag bytes, form.wire len = tag :: bytes ∧ form.Matches tag ∧
      Reads bytes (form.readLength tag) len := by
  have room := form.inline_lt
  have room8 := form.tag8_lt
  have room16 := form.tag16_lt
  have bound := form.tag8.toNat_lt
  have top : (form.base + form.maxLen).toNat = form.base.toNat + form.maxLen.toNat := by
    rw [UInt8.toNat_add]
    omega
  -- an explicit tag lies above every inline tag
  have explicit {tag : UInt8} (above : form.tag8.toNat ≤ tag.toNat) :
      ¬(form.base ≤ tag ∧ tag ≤ form.base + form.maxLen) := by
    rintro ⟨-, inline⟩
    rw [le_iff_toNat_le] at inline
    omega
  unfold wire
  split_ifs with inline small medium
  · have tag : (form.base + ofNat len).toNat = form.base.toNat + len := by
      rw [UInt8.toNat_add, UInt8.toNat_ofNat']
      omega
    have family : form.base ≤ form.base + ofNat len ∧
        form.base + ofNat len ≤ form.base + form.maxLen := by
      rw [le_iff_toNat_le, le_iff_toNat_le]
      omega
    refine ⟨_, [], rfl, .inl family, ?_⟩
    have length : (form.base + ofNat len - form.base).toNat = len := by
      rw [UInt8.toNat_sub_of_le _ _ family.1]
      omega
    have read := Reads.pure (form.base + UInt8.ofNat len - form.base).toNat
    rw [readLength, if_pos family]
    rwa [length] at read ⊢
  · refine ⟨_, _, rfl, .inr (.inl rfl), ?_⟩
    have read := (Reads.byte (UInt8.ofNat len)).map UInt8.toNat
    rw [readLength, if_neg (explicit le_rfl), if_pos rfl]
    rwa [toNat_ofNat_of_lt' small] at read
  · refine ⟨_, _, rfl, .inr (.inr (.inl rfl)), ?_⟩
    have read := (Reads.word 2 medium UInt16.ofNat).map UInt16.toNat
    rw [readLength, if_neg (explicit room8.le), if_neg (by rintro eq; rw [eq] at room8; omega),
      if_pos rfl]
    rwa [UInt16.toNat_ofNat_of_lt' medium] at read
  · refine ⟨_, _, rfl, .inr (.inr (.inr rfl)), ?_⟩
    have read := (Reads.word 4 fits UInt32.ofNat).map UInt32.toNat
    rw [readLength, if_neg (explicit (by omega)), if_neg (by rintro eq; rw [eq] at room16; omega),
      if_neg (by rintro eq; rw [eq] at room16; omega)]
    rwa [UInt32.toNat_ofNat_of_lt' fits] at read

/-- The four families lay their tags out alike: fifteen consecutive bytes from `base`. -/
theorem Matches.offset (h : form.Matches tag)
    (layout : form.maxLen = 11 ∧ form.tag8 = form.base + 12 ∧ form.tag16 = form.base + 13 ∧
      form.tag32 = form.base + 14) : ∃ k : Fin 15, tag = form.base + ofNat k := by
  obtain ⟨count, h8, h16, h32⟩ := layout
  rcases h with ⟨low, high⟩ | rfl | rfl | rfl
  · obtain ⟨distance, bound⟩ := form.inline_length low high
    rw [count] at bound
    have small : (tag - form.base).toNat < 15 := by
      change _ ≤ _ + 11 at bound
      omega
    refine ⟨⟨(tag - form.base).toNat, small⟩, ?_⟩
    apply UInt8.toNat_inj.mp
    have := tag.toNat_lt
    have := le_iff_toNat_le.mp low
    rw [UInt8.ofNat_toNat, UInt8.toNat_add]
    omega
  · exact ⟨12, h8⟩
  · exact ⟨13, h16⟩
  · exact ⟨14, h32⟩

end LengthForm

/-! ## Dispatch on the tags of the four families -/

section Dispatch

variable (self : DecodeM Value) {tag : UInt8}

theorem decodeTag_str (family : strForm.Matches tag) :
    decodeTag self tag = do return .string (← readStr (← strForm.readLength tag)) := by
  obtain ⟨k, rfl⟩ := family.offset ⟨rfl, rfl, rfl, rfl⟩
  fin_cases k <;> rfl

theorem decodeTag_bin (family : binForm.Matches tag) :
    decodeTag self tag = do return .binary (← readBytes (← binForm.readLength tag)) := by
  obtain ⟨k, rfl⟩ := family.offset ⟨rfl, rfl, rfl, rfl⟩
  fin_cases k <;> rfl

theorem decodeTag_array (family : arrayForm.Matches tag) :
    decodeTag self tag = arrayForm.readLength tag >>= decodeArrayValues self := by
  obtain ⟨k, rfl⟩ := family.offset ⟨rfl, rfl, rfl, rfl⟩
  fin_cases k <;> rfl

theorem decodeTag_map (family : mapForm.Matches tag) :
    decodeTag self tag = mapForm.readLength tag >>= decodeMapValues self := by
  obtain ⟨k, rfl⟩ := family.offset ⟨rfl, rfl, rfl, rfl⟩
  fin_cases k <;> rfl

theorem decodeTag_negFixint (k : Fin 12) :
    decodeTag self (negFixintBase + ofNat k) = pure (.int8 (.ofInt (-(k : ℕ) - 1))) := by
  fin_cases k <;> rfl

end Dispatch

/-! ## Integers -/

theorem wireUint_reads {self : DecodeM Value} (fits : n < 2 ^ 128) :
    Reads (wireUint n) (decodeBody self) (normUint n) := by
  unfold wireUint normUint
  split_ifs <;> try omega
  · refine .body ?_
    have inline : ofNat n ≤ fixintMax := by
      rw [le_iff_toNat_le, toNat_ofNat_of_lt' (by change _ < 2 ^ 8; omega)]
      change n ≤ 127
      omega
    rw [decodeTag, if_pos inline]
    exact .pure _
  · exact .body ((Reads.byte _).map _)
  · exact .body ((Reads.word 2 ‹_› _).map _)
  · exact .body ((Reads.word 4 ‹_› _).map _)
  · exact .body ((Reads.word 8 ‹_› _).map _)
  · exact .body ((Reads.word 16 fits _).map _)

private theorem ofNat_complement {width : ℕ} {n : ℤ} (low : -2 ^ width ≤ n) :
    BitVec.ofNat width (n + 2 ^ width).toNat = BitVec.ofInt width n := by
  apply BitVec.eq_of_toNat_eq
  have shifted : (((n + 2 ^ width).toNat : ℕ) : ℤ) = n + 2 ^ width := Int.toNat_of_nonneg (by omega)
  have word : ((((n + 2 ^ width).toNat % 2 ^ width : ℕ)) : ℤ) = n % 2 ^ width := by
    push_cast
    rw [shifted, Int.add_emod_right]
  rw [BitVec.toNat_ofNat, BitVec.toNat_ofInt]
  push_cast
  rw [← word, Int.toNat_natCast]

theorem wireInt_reads {self : DecodeM Value} {n : ℤ} (low : -2 ^ 63 ≤ n) (high : n < 2 ^ 128) :
    Reads (wireInt n) (decodeBody self) (normInt n) := by
  unfold wireInt normInt
  split_ifs <;> try omega
  · exact wireUint_reads (by omega)
  · -- the twelve negative numbers that are their own tag
    obtain ⟨k, hk⟩ : ∃ k : Fin 12, n = -(k : ℕ) - 1 :=
      ⟨⟨(-n - 1).toNat, by omega⟩, by simp only; omega⟩
    have offset : (-n - 1).toNat = k := by omega
    rw [offset, hk]
    refine .body ?_
    rw [decodeTag_negFixint]
    exact .pure _
  · have word : (ofNat (n + 2 ^ 8).toNat).toInt8 = Int8.ofInt n :=
      congrArg Int8.ofBitVec (ofNat_complement (by omega))
    rw [← word]
    exact .body ((Reads.byte _).map _)
  · have word : (UInt16.ofNat (n + 2 ^ 16).toNat).toInt16 = Int16.ofInt n :=
      congrArg Int16.ofBitVec (ofNat_complement (by omega))
    rw [← word]
    exact .body ((Reads.word 2 (by omega) UInt16.ofNat).map _)
  · have word : (UInt32.ofNat (n + 2 ^ 32).toNat).toInt32 = Int32.ofInt n :=
      congrArg Int32.ofBitVec (ofNat_complement (by omega))
    rw [← word]
    exact .body ((Reads.word 4 (by omega) UInt32.ofNat).map _)
  · have word : (UInt64.ofNat (n + 2 ^ 64).toNat).toInt64 = Int64.ofInt n :=
      congrArg Int64.ofBitVec (ofNat_complement (by omega))
    rw [← word]
    exact .body ((Reads.word 8 (by omega) UInt64.ofNat).map _)

/-! ## Outcomes -/

/-- With `room` levels left, `x` either returns `a` and consumes exactly `bytes`, and there
is no fault, or it fails with an error that is a fault. -/
def Decodes (room : ℕ) (bytes : List UInt8) (x : DecodeM α) (a : α)
    (fault : DecodeError → Prop) : Prop :=
  ∀ d : Decoder, d.StartsWith bytes → d.depth + room = maxDepth →
    (x d = .ok a (d.advance bytes.length) ∧ ∀ e, ¬fault e) ∨
      ∃ e d', x d = .error e d' ∧ fault e

variable {fault fault' : DecodeError → Prop}

namespace Decodes

variable {room : ℕ} {bytes : List UInt8} {x : DecodeM α} {a : α}

theorem of_reads (h : Reads bytes x a) : Decodes room bytes x a fun _ => False :=
  fun d starts _ => .inl ⟨h d starts, fun _ => id⟩

theorem congr_fault (h : Decodes room bytes x a fault)
    (same : ∀ e, fault e ↔ fault' e) : Decodes room bytes x a fault' := by
  rwa [funext fun e => propext (same e)] at h

theorem bind (hx : Decodes room bytes x a fault)
    (hf : Decodes room second (f a) b fault') :
    Decodes room (bytes ++ second) (x >>= f) b fun e => fault e ∨ fault' e := by
  intro d starts deep
  obtain ⟨starts, next⟩ := startsWith_append starts
  rcases hx d starts deep with ⟨ok, sound⟩ | ⟨e, d', failed, bad⟩
  · rw [bind_of_ok ok]
    rcases hf _ next deep with ⟨ok', sound'⟩ | ⟨e, d', failed, bad⟩
    · refine .inl ⟨?_, fun e => not_or.mpr ⟨sound e, sound' e⟩⟩
      rw [ok', advance_advance, length_append]
    · exact .inr ⟨e, d', failed, .inr bad⟩
  · exact .inr ⟨e, d', bind_of_error failed, .inl bad⟩

theorem map (h : Decodes room bytes x a fault) (f : α → β) :
    Decodes room bytes (do return f (← x)) (f a) fault := by
  have pure : Decodes room [] (Pure.pure (f a)) (f a) fun _ => False := of_reads (.pure _)
  rw [← append_nil bytes]
  exact (h.bind pure).congr_fault fun e => Iff.of_eq (or_false _)

end Decodes

/-- The errors a value can meet with `room` levels left: an unknown tag if it contains an
extension, the depth limit if it is nested deeper than that. -/
def Fault (room : ℕ) (noExtension : Prop) (depth : ℕ) (e : DecodeError) : Prop :=
  (e = .invalidTag tagExt ∧ ¬noExtension) ∨ (e = .depthLimitExceeded ∧ room < depth)

/-- A flat value without extensions meets no error. -/
theorem Decodes.of_flat {room : ℕ} {bytes : List UInt8} {x : DecodeM α} {a : α}
    (h : Reads bytes x a) : Decodes room bytes x a (Fault room True 0) :=
  (of_reads h).congr_fault fun e => by simp [Fault]

theorem fault_and_max (room m n : ℕ) (p q : Prop) (e : DecodeError) :
    Fault room p m e ∨ Fault room q n e ↔ Fault room (p ∧ q) (max m n) e := by
  simp only [Fault, lt_max_iff]
  tauto

theorem fault_succ (room n : ℕ) (p : Prop) (e : DecodeError) :
    Fault (room + 1) p (n + 1) e ↔ Fault room p n e := by
  simp [Fault]

/-- A container needs one level for itself and leaves one less to its contents. -/
theorem Decodes.nested {room : ℕ} {bytes : List UInt8} {x : DecodeM α} {a : α} {p : Prop}
    (inner : ∀ room, Decodes room bytes x a (Fault room p n)) (f : α → β) :
    Decodes room bytes (do pushDepth; let a ← x; popDepth; return f a) (f a)
      (Fault room p (n + 1)) := by
  intro d starts deep
  cases room with
  | zero =>
    -- no level is left, so the container is refused whatever it holds
    have pushed := (pushDepth_apply d).trans (if_pos (by omega))
    exact .inr ⟨_, _, bind_of_error pushed, .inr ⟨rfl, n.succ_pos⟩⟩
  | succ room =>
    have pushed := (pushDepth_apply d).trans (if_neg (by omega))
    rw [bind_of_ok pushed]
    simp only [fault_succ]
    rcases inner room { d with depth := d.depth + 1 } starts (by simp only; omega) with
      ⟨ok, sound⟩ | ⟨e, d', failed, bad⟩
    · rw [bind_of_ok ok]
      exact .inl ⟨rfl, sound⟩
    · exact .inr ⟨e, d', bind_of_error failed, bad⟩

/-! ## The three outcomes of decoding a wire form -/

/-- Decoding the wire form of `v` yields its normal form unless it meets a fault. -/
def Faithful (v : Value) : Prop :=
  v.LengthsFit → ∀ room,
    Decodes room v.wire decodeValue v.norm (Fault room v.NoExtension v.depth)

theorem Faithful.of_reads (flat : v.NoExtension ∧ v.depth = 0)
    (reads : v.LengthsFit → Reads v.wire (decodeBody decodeValue) v.norm) : Faithful v := by
  intro fit room
  rw [decodeValue_eq, flat.2, eq_true flat.1]
  exact .of_flat (reads fit)

theorem decodeItems_decodes {items : List Value} (faithful : ∀ item ∈ items, Faithful item)
    (fit : Value.AllItems Value.LengthFits items) (room : ℕ) :
    Decodes room (Value.wireItems items) (decodeItems decodeValue items.length)
      (Value.normItems items)
      (Fault room (Value.AllItems Value.NotExtension items) (Value.depthItems items)) := by
  induction items with
  | nil => exact .of_flat (.pure _)
  | cons item items ih =>
    have head := faithful item (by simp) fit.1 room
    have tail := ih (fun item mem => faithful item (by simp [mem])) fit.2
    exact (head.bind (tail.map _)).congr_fault (fault_and_max room _ _ _ _)

theorem decodePairs_decodes {pairs : List (Value × Value)}
    (faithful : ∀ pair ∈ pairs, Faithful pair.1 ∧ Faithful pair.2)
    (fit : Value.AllPairs Value.LengthFits pairs) (room : ℕ) :
    Decodes room (Value.wirePairs pairs) (decodePairs decodeValue pairs.length)
      (Value.normPairs pairs)
      (Fault room (Value.AllPairs Value.NotExtension pairs) (Value.depthPairs pairs)) := by
  induction pairs with
  | nil => exact .of_flat (.pure _)
  | cons pair pairs ih =>
    obtain ⟨key, value⟩ := pair
    obtain ⟨keyFits, valueFits, restFit⟩ := fit
    obtain ⟨hkey, hvalue⟩ := faithful (key, value) (by simp)
    have tail := ih (fun pair mem => faithful pair (by simp [mem])) restFit
    refine ((hkey keyFits room).bind ((hvalue valueFits room).bind (tail.map _))).congr_fault ?_
    intro e
    rw [fault_and_max, fault_and_max, ← max_assoc]
    rfl

theorem readStr_reads (s : String) : Reads (strBytes s) (readStr (strBytes s).length) s := by
  refine (Reads.bytes (strBytes s)).bindLast ?_
  rw [fromUtf8_strBytes]
  exact .pure s

theorem readUuid_reads (u : List.Vector UInt8 16) : Reads u.toList readUuid (.uuid u) := by
  have raw := Reads.bytes u.toList
  rw [u.toList_length] at raw
  refine raw.bindLast ?_
  rw [dif_pos u.toList_length]
  exact .pure _

/-- A family's header leads the dispatch to the family's branch, with the length read. -/
theorem header_decodes {branch : ℕ → DecodeM Value}
    (dispatch : ∀ {tag}, form.Matches tag → decodeTag decodeValue tag = form.readLength tag >>=
      branch) {len room : ℕ} {bytes : List UInt8} (fits : len < 2 ^ 32)
    (rest : Decodes room bytes (branch len) v fault) :
    Decodes room (form.wire len ++ bytes) decodeValue v fault := by
  obtain ⟨tag, header, split, family, reads⟩ := form.wire_reads fits
  rw [split, decodeValue_eq]
  have dispatched : Decodes room (header ++ bytes) (decodeTag decodeValue tag) v
      fun e => False ∨ fault e := by
    rw [dispatch family]
    exact (Decodes.of_reads reads).bind rest
  exact ((Decodes.of_reads (.byte tag)).bind dispatched).congr_fault fun e => by simp

/-- Every value whose lengths fit decodes to its normal form, unless it contains an
extension or is nested too deeply, and then that is the error. -/
theorem decodeValue_decodes : Faithful v := by
  induction v using Value.induct with
  | null => exact .of_reads ⟨trivial, rfl⟩ fun _ => .body (.pure _)
  | bool b => cases b <;> exact .of_reads ⟨trivial, rfl⟩ fun _ => .body (.pure _)
  | uint8 n | uint16 n | uint32 n | uint64 n =>
    have := n.toNat_lt
    exact .of_reads ⟨trivial, rfl⟩ fun _ => wireInt_reads (by omega) (by omega)
  | uint128 n =>
    exact .of_reads ⟨trivial, rfl⟩ fun _ => wireInt_reads (by omega) (by omega)
  | int8 n | int16 n | int32 n | int64 n =>
    have := n.toInt_lt
    have := n.le_toInt
    exact .of_reads ⟨trivial, rfl⟩ fun _ => wireInt_reads (by omega) (by omega)
  | float32 bits =>
    have read := Reads.word 4 bits.toNat_lt fun n => Value.float32 (UInt32.ofNat n)
    simp only [UInt32.ofNat_toNat] at read
    exact .of_reads ⟨trivial, rfl⟩ fun _ => .body read
  | float64 bits =>
    have read := Reads.word 8 bits.toNat_lt fun n => Value.float64 (UInt64.ofNat n)
    simp only [UInt64.ofNat_toNat] at read
    exact .of_reads ⟨trivial, rfl⟩ fun _ => .body read
  | timestamp nanos =>
    have read := (Reads.word 8 nanos.toNat_lt UInt64.ofNat).map Value.timestamp
    rw [UInt64.ofNat_toNat] at read
    exact .of_reads ⟨trivial, rfl⟩ fun _ => .body read
  | uuid u => exact .of_reads ⟨trivial, rfl⟩ fun _ => .body (readUuid_reads u)
  | string s =>
    intro fit room
    exact header_decodes (decodeTag_str decodeValue) fit (.of_flat ((readStr_reads s).map _))
  | binary b =>
    intro fit room
    exact header_decodes (decodeTag_bin decodeValue) fit (.of_flat ((Reads.bytes b).map _))
  | array items ih =>
    intro fit room
    refine header_decodes (decodeTag_array decodeValue) fit.1 ?_
    have inner := decodeItems_decodes ih fit.2
    rw [show (Value.array items).NoExtension = (True ∧ _) from rfl, true_and]
    exact .nested inner _
  | map pairs ih =>
    intro fit room
    refine header_decodes (decodeTag_map decodeValue) fit.1 ?_
    have inner := decodePairs_decodes ih fit.2
    rw [show (Value.map pairs).NoExtension = (True ∧ _) from rfl, true_and]
    exact .nested inner _
  | extension typeId data =>
    -- the tag is read, and no branch of the dispatch takes it
    rintro - room d starts -
    obtain ⟨starts, -⟩ : d.StartsWith [tagExt] ∧ _ := startsWith_append starts
    exact .inr ⟨_, _, bind_of_ok (Reads.byte tagExt d starts), .inl ⟨rfl, id⟩⟩

/-! ## Encoding, then decoding -/

/-- On a fresh decoder over a wire form and anything behind it, the outcome is decided by
the value alone. -/
theorem decodeValue_wire (v : Value) (fit : v.LengthsFit) (suffix : List UInt8) :
    (decodeValue (new (v.wire ++ suffix)) =
        .ok v.norm ⟨v.wire ++ suffix, v.wire.length, 0⟩ ∧ v.NoExtension ∧ v.depth ≤ maxDepth) ∨
      ∃ e d, decodeValue (new (v.wire ++ suffix)) = .error e d ∧
        Fault maxDepth v.NoExtension v.depth e := by
  -- a fresh decoder has all levels left
  have starts : (new (v.wire ++ suffix)).StartsWith v.wire := by
    refine ⟨Nat.zero_le _, suffix, ?_⟩
    simp [rest, new]
  rcases decodeValue_decodes fit maxDepth _ starts (zero_add _) with ⟨ok, sound⟩ | failed
  · left
    refine ⟨by simpa [advance, new] using ok, ?_, ?_⟩
    · by_contra ext
      exact sound _ (.inl ⟨rfl, ext⟩)
    · by_contra deep
      exact sound _ (.inr ⟨rfl, not_le.mp deep⟩)
  · exact .inr failed

/-- Round trip: a value without extensions encodes, and decoding its bytes in front of any
others gives back its normal form and stops right behind them, or reports the depth limit
if the value is nested too deeply. -/
theorem decodeValue_encode (v : Value) (noExtension : v.NoExtension) (fit : v.LengthsFit)
    (suffix : List UInt8) : ∃ bytes, encode v = .ok bytes ∧
      (v.depth ≤ maxDepth → decodeValue (new (bytes ++ suffix)) =
        .ok v.norm ⟨bytes ++ suffix, bytes.length, 0⟩) ∧ (maxDepth < v.depth → ∃ d,
        decodeValue (new (bytes ++ suffix)) = .error .depthLimitExceeded d) := by
  refine ⟨v.wire, encode_eq_ok v fit, ?_⟩
  rcases decodeValue_wire v fit suffix with ⟨ok, -, shallow⟩ |
    ⟨e, d, failed, ⟨-, ext⟩ | ⟨rfl, deep⟩⟩
  · exact ⟨fun _ => ok, fun deep => absurd shallow (not_le.mpr deep)⟩
  · exact absurd noExtension ext
  · exact ⟨fun shallow => absurd shallow (not_le.mpr deep), fun _ => ⟨d, failed⟩⟩

/-- An `i64` that fits a byte and a `u64` that needs two come back narrowed, in a map under
a string key. -/
theorem decodeValue_encode_map :
    ∃ bytes, encode (.map [(.string "k", .array [.int64 (-13), .uint64 300])]) = .ok bytes ∧
      decodeValue (new (bytes ++ [0xFF])) =
        .ok (.map [(.string "k", .array [.int8 (-13), .uint16 300])])
          ⟨bytes ++ [0xFF], bytes.length, 0⟩ := by
  obtain ⟨bytes, encoded, decoded, -⟩ := decodeValue_encode
    (.map [(.string "k", .array [.int64 (-13), .uint64 300])])
    ⟨trivial, trivial, ⟨trivial, trivial, trivial, trivial⟩, trivial⟩
    ⟨Nat.one_lt_two_pow (by decide), (by decide : (strBytes "k").length < 2 ^ 32),
      ⟨(by decide : 2 < 2 ^ 32), trivial, trivial, trivial⟩, trivial⟩ [0xFF]
  exact ⟨bytes, encoded, decoded (by decide)⟩

/-- What the encoder writes, the decoder accepts, exactly when no extension occurs: the
decoder has no branch for the tag of extensions. -/
theorem decode_encode_ok_iff (v : Value) (fit : v.LengthsFit) (shallow : v.depth ≤ maxDepth) :
    (∃ bytes w, encode v = .ok bytes ∧ decode bytes = .ok w) ↔ v.NoExtension := by
  have outcome := decodeValue_wire v fit []
  rw [append_nil] at outcome
  constructor
  · rintro ⟨bytes, w, encoded, decoded⟩
    rw [encode_eq_ok v fit] at encoded
    cases encoded
    rcases outcome with ⟨-, noExtension, -⟩ | ⟨e, d, failed, -⟩
    · exact noExtension
    · rw [decode, failed] at decoded
      cases decoded
  · intro noExtension
    refine ⟨v.wire, v.norm, encode_eq_ok v fit, ?_⟩
    rcases outcome with ⟨ok, -⟩ | ⟨e, d, -, ⟨-, ext⟩ | ⟨-, deep⟩⟩
    · rw [decode, ok]
    · exact absurd noExtension ext
    · exact absurd shallow (not_le.mpr deep)

theorem decode_encode_ok_iff_singleton :
    (∃ bytes w, encode (.array [.null]) = .ok bytes ∧ decode bytes = .ok w) ↔
      (Value.array [.null]).NoExtension :=
  decode_encode_ok_iff _ ⟨Nat.one_lt_two_pow (by decide), trivial, trivial⟩ (by decide)

/-- An empty extension is encoded, and its bytes are rejected. -/
theorem not_decode_encode_ok : ¬∀ v : Value, v.LengthsFit → v.depth ≤ maxDepth →
    ∃ bytes w, encode v = .ok bytes ∧ decode bytes = .ok w := by
  intro covered
  obtain ⟨bytes, w, encoded, decoded⟩ := covered (.extension 7 []) (Nat.two_pow_pos 32) (by decide)
  cases encoded
  cases decoded

end SmartOs.SmartPack
