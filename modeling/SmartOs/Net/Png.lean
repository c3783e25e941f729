/-
# Scan lines of PNG images

Each row of an image comes with the number of a filter, which has replaced every byte by its
difference to a prediction from the bytes to the left, above, and above to the left. Undoing the
filters row by row gives back the image, whatever filter each row has.
-/

import Mathlib.Algebra.Order.Group.Unbundled.Int
import Mathlib.Data.List.Induction

namespace SmartOs.Net.Png

open List

inductive PngError
  | truncated
  | badFilter (filt : UInt8)

/-- The byte of the pixel to the left, in a row of `bpp` bytes a pixel. -/
def leftOf (row : List UInt8) (bpp i : ℕ) : UInt8 := if bpp ≤ i then row.getD (i - bpp) 0 else 0

def paethPred (a b c : UInt8) : UInt8 :=
  let p : ℤ := a.toNat + b.toNat - c.toNat
  let pa := (p - a.toNat).natAbs
  let pb := (p - b.toNat).natAbs
  let pc := (p - c.toNat).natAbs
  if pa ≤ pb ∧ pa ≤ pc then a else if pb ≤ pc then b else c

/-- The loop over the bytes of a row, with the prediction that is added. -/
def addPred (pred : UInt8 → UInt8 → UInt8 → UInt8) (bpp : ℕ) (prevRow : List UInt8)
    (cur : List UInt8) (x : UInt8) : List UInt8 :=
  let i := cur.length
  cur ++ [x + pred (leftOf cur bpp i) (prevRow.getD i 0) (leftOf prevRow bpp i)]

def unfilterRow (filt : UInt8) (bpp : ℕ) (prevRow scan : List UInt8) :
    Except PngError (List UInt8) :=
  let loop pred := scan.foldl (addPred pred bpp prevRow) []
  match filt.toNat with
  | 0 => .ok scan
  | 1 => .ok (loop fun a _ _ => a)
  | 2 => .ok (loop fun _ b _ => b)
  | 3 => .ok (loop fun a b _ => .ofNat ((a.toNat + b.toNat) / 2))
  | 4 => .ok (loop paethPred)
  | _ => .error (.badFilter filt)

/-- The rows that are left, with the row above them. -/
def unfilterRows (rowBytes bpp : ℕ) :
    (height : ℕ) → (raw prevRow : List UInt8) → Except PngError (List UInt8)
  | 0, _, _ => .ok []
  | height + 1, raw, prevRow => do
    let cur ← unfilterRow (raw.headD 0) bpp prevRow (raw.tail.take rowBytes)
    let rest ← unfilterRows rowBytes bpp height (raw.drop (rowBytes + 1)) cur
    return cur ++ rest

def unfilterScanlines (raw : List UInt8) (height rowBytes bpp : ℕ) : Except PngError (List UInt8) :=
  if raw.length < (rowBytes + 1) * height then .error .truncated
  else unfilterRows rowBytes bpp height raw (replicate rowBytes 0)

/-! ## The filters of the specification -/

inductive FilterType
  | none | sub | up | average | paeth

namespace FilterType

def code : FilterType → UInt8
  | none => 0
  | sub => 1
  | up => 2
  | average => 3
  | paeth => 4

/-- The prediction from the bytes to the left, above, and above to the left. -/
def predict : FilterType → (a b c : ℕ) → ℕ
  | none, _, _, _ => 0
  | sub, a, _, _ => a
  | up, _, b, _ => b
  | average, a, b, _ => (a + b) / 2
  | paeth, a, b, c =>
    let p : ℤ := a + b - c
    if |p - a| ≤ |p - b| ∧ |p - a| ≤ |p - c| then a else if |p - b| ≤ |p - c| then b else c

def predictByte (filter : FilterType) (a b c : UInt8) : UInt8 :=
  .ofNat (filter.predict a.toNat b.toNat c.toNat)

/-- A byte of a filtered row. -/
def apply (filter : FilterType) (bpp : ℕ) (above row : List UInt8) (i : ℕ) (x : UInt8) : UInt8 :=
  x - filter.predictByte (leftOf row bpp i) (above.getD i 0) (leftOf above bpp i)

end FilterType

/-- The rows of an image, each behind the number of its filter. -/
def filterRows (bpp : ℕ) (above : List UInt8) : List (FilterType × List UInt8) → List UInt8
  | [] => []
  | (filter, row) :: rows =>
    filter.code :: row.mapIdx (filter.apply bpp above row) ++ filterRows bpp row rows

/-! ## Undoing them -/

theorem predictByte_paeth : FilterType.paeth.predictByte = paethPred := by
  funext a b c
  simp only [FilterType.predictByte, FilterType.predict, paethPred, Int.abs_eq_natAbs, Int.ofNat_le]
  split_ifs <;> exact UInt8.ofNat_toNat

variable {bpp : ℕ} {above row : List UInt8}

/-- The bytes up to the current one are those of the row, so the predictions are the same. -/
theorem foldl_addPred (filter : FilterType) (pixel : 1 ≤ bpp) {front : List UInt8}
    (isPrefix : front <+: row) :
    (front.mapIdx (filter.apply bpp above row)).foldl (addPred filter.predictByte bpp above) [] =
      front := by
  induction front using reverseRecOn with
  | nil => rfl
  | append_singleton front x ih =>
    have shorter := prefix_append front [x] |>.trans isPrefix
    have same : leftOf front bpp front.length = leftOf row bpp front.length := by
      unfold leftOf
      split
      next inside =>
        obtain ⟨rest, rfl⟩ := shorter
        have earlier : front.length - bpp < front.length := by omega
        rw [getD_eq_getElem?_getD, getD_eq_getElem?_getD, getElem?_append_left earlier]
      · rfl
    rw [mapIdx_concat, foldl_append, ih shorter, foldl_cons, foldl_nil, addPred, same,
      FilterType.apply]
    simp

theorem unfilterRow_apply (filter : FilterType) (pixel : 1 ≤ bpp) (above row : List UInt8) :
    unfilterRow filter.code bpp above (row.mapIdx (filter.apply bpp above row)) = .ok row := by
  have undone := @foldl_addPred bpp above row filter pixel row prefix_rfl
  cases filter with
  | none =>
    refine congrArg Except.ok (ext_getElem (by simp) fun i _ _ => ?_)
    simp [FilterType.apply, FilterType.predictByte, FilterType.predict]
  | sub | up =>
    unfold FilterType.predictByte at undone
    simp only [FilterType.predict, UInt8.ofNat_toNat] at undone
    exact congrArg Except.ok undone
  | average => exact congrArg Except.ok undone
  | paeth =>
    rw [predictByte_paeth] at undone
    exact congrArg Except.ok undone

section

variable (pixel : 1 ≤ bpp) {rowBytes : ℕ} {rows : List (FilterType × List UInt8)}
  (shape : ∀ row ∈ rows, row.2.length = rowBytes)

include pixel shape

theorem unfilterRows_filterRows (above rest : List UInt8) :
    (filterRows bpp above rows).length = (rowBytes + 1) * rows.length ∧
      unfilterRows rowBytes bpp rows.length (filterRows bpp above rows ++ rest) above =
        .ok (rows.flatMap Prod.snd) := by
  induction rows generalizing above with
  | nil => exact ⟨rfl, rfl⟩
  | cons row rows ih =>
    obtain ⟨first, shape⟩ := forall_mem_cons.mp shape
    obtain ⟨length, undone⟩ := ih shape row.2
    constructor
    · simp [filterRows, length, first, Nat.mul_add]
      omega
    rw [length_cons, unfilterRows, filterRows]
    simp only [cons_append, append_assoc, headD_cons, tail_cons, drop_succ_cons]
    rw [take_left' (by simpa using first), drop_left' (by simpa using first),
      unfilterRow_apply _ pixel]
    simp [bind, Except.bind, undone, pure, Except.pure]

/-- Undoing the filters of an image gives back its bytes, whatever comes after the last row. -/
theorem unfilterScanlines_filterRows (rest : List UInt8) :
    unfilterScanlines (filterRows bpp (replicate rowBytes 0) rows ++ rest)
        rows.length rowBytes bpp = .ok (rows.flatMap Prod.snd) := by
  obtain ⟨length, undone⟩ := unfilterRows_filterRows pixel shape (replicate rowBytes 0) rest
  rw [unfilterScanlines, length_append, length, if_neg (by omega), undone]

end

theorem unfilterScanlines_two_rows :
    unfilterScanlines [1, 5, 2, 4, 1, 1, 9] 2 2 1 = .ok [5, 7, 6, 8] := by
  exact @unfilterScanlines_filterRows 1 (by decide) 2 [(.sub, [5, 7]), (.paeth, [6, 8])]
    (by decide) [9]

end SmartOs.Net.Png
