/-
# The dynamic table of HPACK

A header block changes the table by the literals that it adds and by its size updates. Section 4 of
RFC 7541 says what is left: the newest entries, as long as they fit into the maximum size. The
decoder gets there by evicting from the end and keeps the total in a counter of its own.
-/

import SmartOs.Net.Hpack

namespace SmartOs.Net.Hpack

open CS HpackDecoder List

/-! ## The table of the RFC -/

/-- What an entry of a header block does to the table. -/
inductive TableChange where
  | insert (header : Header)
  | resize (maxSize : ℕ)

structure RfcTable where
  maxSize : ℕ
  /-- The most recent entry comes first. -/
  entries : List Header

/-- The newest entries, up to the first that does not fit beside what is used. -/
def newest (maxSize : ℕ) : (used : ℕ) → List Header → List Header
  | _, [] => []
  | used, e :: rest =>
    if used + entrySize e ≤ maxSize then e :: newest maxSize (used + entrySize e) rest else []

/-- An entry that is larger than the table leaves nothing. -/
def RfcTable.change (t : RfcTable) : TableChange → RfcTable
  | .insert header => { t with entries := newest t.maxSize 0 (header :: t.entries) }
  | .resize maxSize => ⟨maxSize, newest maxSize 0 t.entries⟩

def tableSize (entries : List Header) : ℕ := (entries.map entrySize).sum

variable {maxSize used room : ℕ} {entries : List Header}

theorem newest_of_fits (fits : tableSize entries + used ≤ maxSize) :
    newest maxSize used entries = entries := by
  induction entries generalizing used with
  | nil => rfl
  | cons e rest ih =>
    rw [tableSize, map_cons, sum_cons] at fits
    rw [newest, if_pos (by omega), ih (by rw [tableSize]; omega)]

theorem newest_concat {last : Header} (above : maxSize < tableSize (entries ++ [last]) + used) :
    newest maxSize used (entries ++ [last]) = newest maxSize used entries := by
  induction entries generalizing used with
  | nil =>
    simp only [tableSize, nil_append, map_cons, map_nil, sum_singleton] at above
    exact if_neg (by omega)
  | cons e rest ih =>
    rw [cons_append, tableSize, map_cons, sum_cons] at above
    rw [cons_append, newest, newest, ih (by rw [tableSize]; omega)]

theorem tableSize_newest (fits : used ≤ maxSize) :
    tableSize (newest maxSize used entries) + used ≤ maxSize := by
  induction entries generalizing used with
  | nil => simpa [newest, tableSize] using fits
  | cons e rest ih =>
    rw [newest]
    split_ifs with more
    · have := ih more
      rw [tableSize] at this
      rw [tableSize, map_cons, sum_cons]
      omega
    · simpa [tableSize] using fits

/-! ## The table of the decoder -/

namespace HpackDecoder

/-- The counter is the size of the table. -/
def Counted (d : HpackDecoder) : Prop := d.currentSize = tableSize d.dynamicTable

def table (d : HpackDecoder) : RfcTable := ⟨d.maxSize, d.dynamicTable⟩

variable {d d' : HpackDecoder}

theorem evict_spec (counted : d.Counted) : (evict room d).Counted ∧
      (evict room d).table = ⟨d.maxSize, newest d.maxSize room d.dynamicTable⟩ := by
  fun_induction evict room d with
  | case1 d above last found ih =>
    obtain ⟨front, split⟩ := getLast?_eq_some_iff.mp found
    rw [Counted, split] at counted
    have size : tableSize (front ++ [last]) = tableSize front + entrySize last := by
      simp [tableSize]
    simp only [split, dropLast_concat] at ih ⊢
    rw [newest_concat (by omega)]
    refine ih ?_
    rw [Counted]
    dsimp only
    omega
  | case2 d above none =>
    rw [getLast?_eq_none_iff.mp none]
    exact ⟨counted, by rw [table, getLast?_eq_none_iff.mp none, newest]⟩
  | case3 d fits =>
    rw [newest_of_fits (by rw [← counted]; omega)]
    exact ⟨counted, rfl⟩

theorem addToTable_spec (counted : d.Counted) (header : Header) : (d.addToTable header).Counted ∧
      (d.addToTable header).table = ⟨d.maxSize, newest d.maxSize 0 (header :: d.dynamicTable)⟩ := by
  obtain ⟨evicted, left⟩ := @evict_spec (entrySize header) d counted
  obtain ⟨limit, kept⟩ := RfcTable.mk.inj left
  simp only [addToTable, newest, zero_add, limit, ← kept]
  split_ifs with fits
  · refine ⟨?_, rfl⟩
    rw [add_comm]
    exact congrArg _ evicted
  -- nothing fits beside the new entry
  refine ⟨evicted, ?_⟩
  rw [left]
  cases d.dynamicTable with
  | nil => rfl
  | cons e rest => rw [newest, if_neg (by omega)]

/-- The change that a representation asks for, by its first byte. -/
def changes (b : UInt8) (src : List UInt8) (pushed : List Header) : List TableChange :=
  if b &&& 0xC0 = 0x40 then pushed.map .insert
  else if b &&& 0xE0 = 0x20 then
    match decodeInteger 5 src with
    | .ok newSize _ => [.resize newSize]
    | .error _ _ => []
  else []

theorem representation_spec {b : UInt8} {src rest : List UInt8} {pushed : List Header}
    (decoded : d.representation b src = .ok (d', pushed) rest) (counted : d.Counted) :
    d'.Counted ∧ d'.table = (changes b src pushed).foldl RfcTable.change d.table := by
  have bits : ∀ n < 256, (UInt8.ofNat n &&& 0x80 ≠ 0 ∨ UInt8.ofNat n &&& 0xF0 = 0x00 ∨
      UInt8.ofNat n &&& 0xF0 = 0x10) → ¬UInt8.ofNat n &&& 0xC0 = 0x40 ∧
        ¬UInt8.ofNat n &&& 0xE0 = 0x20 := by decide +kernel
  have apart := bits b.toNat b.toNat_lt
  rw [UInt8.ofNat_toNat] at apart
  unfold representation at decoded
  unfold changes
  split_ifs at decoded with indexed added plain resized
  · obtain ⟨idx, _, -, decoded⟩ := bind_eq_ok_iff.mp decoded
    obtain ⟨header, _, -, decoded⟩ := bind_eq_ok_iff.mp decoded
    cases decoded
    obtain ⟨notAdded, notResized⟩ := apart (.inl indexed)
    rw [if_neg notAdded, if_neg notResized]
    exact ⟨counted, rfl⟩
  · obtain ⟨header, _, -, decoded⟩ := bind_eq_ok_iff.mp decoded
    cases decoded
    rw [if_pos added]
    exact addToTable_spec counted header
  · obtain ⟨header, _, -, decoded⟩ := bind_eq_ok_iff.mp decoded
    cases decoded
    rw [if_neg added, if_neg (apart (.inr plain)).2]
    exact ⟨counted, rfl⟩
  · obtain ⟨newSize, _, number, decoded⟩ := bind_eq_ok_iff.mp decoded
    cases decoded
    rw [if_neg added, if_pos resized, number]
    exact @evict_spec 0 { d with maxSize := newSize } counted
  · cases decoded
    rw [if_neg added, if_neg resized]
    exact ⟨counted, rfl⟩

/-- What a block does to the table, up to its end or its first error. -/
def blockChanges (d : HpackDecoder) (src : List UInt8) : List TableChange :=
  match src with
  | [] => []
  | b :: rest =>
    match _ : d.representation b (b :: rest) with
    | .ok (d', pushed) src' => changes b (b :: rest) pushed ++ blockChanges d' src'
    | .error _ _ => []
termination_by src.length
decreasing_by exact representation_shortens (by assumption)

theorem decodeFrom_spec {src : List UInt8} {headers : List Header} (counted : d.Counted) :
    (finalState (d.decodeFrom headers src)).Counted ∧
      (finalState (d.decodeFrom headers src)).table =
        (d.blockChanges src).foldl RfcTable.change d.table := by
  fun_induction decodeFrom d headers src with
  | case1 d headers =>
    rw [blockChanges]
    exact ⟨counted, rfl⟩
  | case2 d headers b rest d' pushed src' decoded ih =>
    obtain ⟨after, made⟩ := representation_spec decoded counted
    rw [blockChanges]
    split
    next decoded' =>
      cases decoded.symm.trans decoded'
      rw [foldl_append, ← made]
      exact ih after
    next failed => cases decoded.symm.trans failed
  | case3 d headers b rest e _ failed =>
    rw [blockChanges]
    split
    next decoded => cases failed.symm.trans decoded
    next => exact ⟨counted, rfl⟩

/-- The decoder after some header blocks, whether or not they could be decoded. -/
def decodeAll (d : HpackDecoder) (blocks : List (List UInt8)) : HpackDecoder :=
  blocks.foldl (fun d src => finalState (decode src d)) d

def allChanges (d : HpackDecoder) : List (List UInt8) → List TableChange
  | [] => []
  | src :: blocks => d.blockChanges src ++ allChanges (finalState (decode src d)) blocks

theorem decodeAll_spec (counted : d.Counted) (blocks : List (List UInt8)) :
    (d.decodeAll blocks).Counted ∧
      (d.decodeAll blocks).table = (d.allChanges blocks).foldl RfcTable.change d.table := by
  induction blocks generalizing d with
  | nil => exact ⟨counted, rfl⟩
  | cons src blocks ih =>
    obtain ⟨after, made⟩ := @decodeFrom_spec d src [] counted
    obtain ⟨final, run⟩ := ih after
    refine ⟨final, run.trans ?_⟩
    rw [allChanges, foldl_append, ← made]
    rfl

theorem tableSize_change (t : RfcTable) (changes : List TableChange)
    (fits : tableSize t.entries ≤ t.maxSize) :
    let t := changes.foldl RfcTable.change t
    tableSize t.entries ≤ t.maxSize := by
  induction changes generalizing t with
  | nil => exact fits
  | cons change changes ih =>
    refine ih (t.change change) ?_
    cases change <;> exact tableSize_newest (Nat.zero_le _)

/-- The table is the one of the RFC, the counter is its size and it fits, and an index finds an
entry in the static table with the dynamic table behind it. -/
theorem table_eq_rfc (blocks : List (List UInt8)) :
    let d := new.decodeAll blocks
    let t := (new.allChanges blocks).foldl RfcTable.change ⟨4096, []⟩
    d.currentSize = tableSize d.dynamicTable ∧ d.currentSize ≤ d.maxSize ∧
      d.maxSize = t.maxSize ∧ d.dynamicTable = t.entries ∧
      d.lookup 0 = none ∧ ∀ i, d.lookup (i + 1) = (hpackStatic ++ t.entries)[i]? := by
  intro d t
  obtain ⟨counted, same⟩ := @decodeAll_spec new rfl blocks
  have limit : d.maxSize = t.maxSize := congrArg RfcTable.maxSize same
  have entries : d.dynamicTable = t.entries := congrArg RfcTable.entries same
  refine ⟨counted, ?_, limit, entries, rfl, fun i => ?_⟩
  · rw [show d.currentSize = _ from counted, limit, entries]
    exact tableSize_change ⟨4096, []⟩ _ (Nat.zero_le _)
  · rw [lookup, getElem?_append, entries, Nat.sub_right_comm]
    rfl

end HpackDecoder

end SmartOs.Net.Hpack
