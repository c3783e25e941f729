/-
# The bitmap frame allocator

Physical memory is divided into 4 KiB frames. The allocator keeps one bit per frame, set
when the frame is free, and a running count of the free ones. It is built from the
bootloader's memory map: the frames that lie wholly inside a usable region, at or above
`reservedEnd`, start out free.

The pool of those frames is the abstract view. A run of `alloc_frame` and
`dealloc_frame` calls is a run of a pool from which frames are taken and to which they
are returned, and `Represents` says how the bitmap encodes it.
-/

import SmartOs.CS.Run
import SmartOs.Math.Bitmap

namespace SmartOs.Memory

open SmartOs.CS SmartOs.Math

def frameSize : ℕ := 4096

/-- `PhysFrame::start_address`. Frames are named by their number. -/
def startAddress (frame : ℕ) : ℕ := frame * frameSize

/-- `PhysFrame::containing_address`. -/
def containingAddress (addr : ℕ) : ℕ := addr / frameSize

inductive MemoryRegionKind where
  | usable
  | bootloader
  | unknownUefi (type : UInt32)
  | unknownBios (type : UInt32)
  deriving DecidableEq

/-- A region of the bootloader's memory map. Its start is a physical address, which has
at most 52 bits. -/
structure MemoryRegion where
  start : ℕ
  endAddr : ℕ
  kind : MemoryRegionKind
  start_lt : start < 2 ^ 52

structure BitmapFrameAllocator where
  /-- One bit per frame, set when the frame is free. -/
  bitmap : List (BitVec 64)
  baseAddr : ℕ
  totalFrames : ℕ
  freeCount : ℕ
  base_eq : baseAddr = 0

variable {region : MemoryRegion} {frame totalFrames wordIdx : ℕ}

namespace BitmapFrameAllocator

/-! ## The source functions -/

/-- One round of the marking loop: `marked` is the bitmap and the free count so far. -/
def markFrame (reservedEnd : ℕ) (marked : List (BitVec 64) × ℕ) (addr : ℕ) : List (BitVec 64) × ℕ :=
  if addr ≥ reservedEnd then
    let frameIdx := addr / frameSize
    if frameIdx / 64 < marked.1.length then (setBit marked.1 frameIdx, marked.2 + 1) else marked
  else marked

/-- The marking loop over `count` consecutive frames from `addr`. -/
def markFrames (reservedEnd : ℕ) : (count addr : ℕ) → List (BitVec 64) × ℕ → List (BitVec 64) × ℕ
  | 0, _, marked => marked
  | count + 1, addr, marked =>
    markFrames reservedEnd count (addr + frameSize) (markFrame reservedEnd marked addr)

/-- Mark the frames of one region, its start aligned up and its end aligned down. -/
def markRegion (reservedEnd : ℕ) (marked : List (BitVec 64) × ℕ) (region : MemoryRegion) :
    List (BitVec 64) × ℕ :=
  if region.kind ≠ .usable then marked
  else
    let start := (region.start + (frameSize - 1)) % 2 ^ 64 / frameSize * frameSize
    let stop := region.endAddr / frameSize * frameSize
    if start ≥ stop then marked
    -- both bounds are aligned, so `while addr < end` runs once per frame between them
    else markFrames reservedEnd ((stop - start) / frameSize) start marked

def new (memoryRegions : List MemoryRegion) (reservedEnd : ℕ) : BitmapFrameAllocator :=
  let maxAddr := (memoryRegions.map (·.endAddr)).max?.getD 0
  let totalFrames := maxAddr / frameSize
  let bitmapWords := (totalFrames + 63) / 64
  let marked := memoryRegions.foldl (markRegion reservedEnd) (List.replicate bitmapWords 0#64, 0)
  { bitmap := marked.1, baseAddr := 0, totalFrames, freeCount := marked.2, base_eq := rfl }

/-- The scan of `alloc_frame`: the first free frame, and the words with its bit cleared. -/
def scan (totalFrames : ℕ) : (wordIdx : ℕ) → List (BitVec 64) → Option (ℕ × List (BitVec 64))
  | _, [] => none
  | wordIdx, word :: words =>
    let bit := word.ctz.toNat
    let frameIdx := wordIdx * 64 + bit
    if word = 0#64 ∨ frameIdx ≥ totalFrames then
      (scan totalFrames (wordIdx + 1) words).map fun (found, rest) => (found, word :: rest)
    else some (frameIdx, (word &&& ~~~(1#64 <<< bit)) :: words)

def allocFrame (self : BitmapFrameAllocator) : Option ℕ × BitmapFrameAllocator :=
  if self.freeCount = 0 then (none, self)
  else
    match scan self.totalFrames 0 self.bitmap with
    | none => (none, self)
    | some (frameIdx, bitmap) =>
      let physAddr := self.baseAddr + frameIdx * frameSize
      (some (containingAddress physAddr), { self with bitmap, freeCount := self.freeCount - 1 })

def deallocFrame (self : BitmapFrameAllocator) (frame : ℕ) : BitmapFrameAllocator :=
  let frameIdx := (startAddress frame - self.baseAddr) / frameSize
  if frameIdx / 64 < self.bitmap.length then
    if testBit self.bitmap frameIdx = false then
      { self with bitmap := setBit self.bitmap frameIdx, freeCount := self.freeCount + 1 }
    else self
  else self

/-! ## What the calls do to the bitmap -/

def IsFree (self : BitmapFrameAllocator) (frame : ℕ) : Prop :=
  testBit self.bitmap frame

instance (self : BitmapFrameAllocator) (frame : ℕ) : Decidable (self.IsFree frame) :=
  inferInstanceAs (Decidable (_ = true))

private theorem ctz_spec {word : BitVec 64} (ne : word ≠ 0#64) :
    word.ctz.toNat < 64 ∧ word.getLsbD word.ctz.toNat := by
  have set := BitVec.getLsbD_true_ctz_of_ne_zero ne
  exact ⟨BitVec.lt_of_getLsbD set, set⟩

theorem scan_eq_some {found : ℕ} {words rest : List (BitVec 64)}
    (h : scan totalFrames wordIdx words = some (found, rest)) :
    ∃ i, found = wordIdx * 64 + i ∧ found < totalFrames ∧ testBit words i ∧
      rest = clearBit words i := by
  induction words generalizing wordIdx rest with
  | nil => cases h
  | cons word words ih =>
    rw [scan] at h
    by_cases skipped : word = 0#64 ∨ wordIdx * 64 + word.ctz.toNat ≥ totalFrames
    · rw [if_pos skipped] at h
      obtain ⟨⟨found, rest⟩, later, same⟩ := Option.map_eq_some_iff.mp h
      cases same
      obtain ⟨i, position, inside, set, cleared⟩ := ih later
      refine ⟨i + 64, by omega, inside, ?_, ?_⟩
      · rw [testBit_cons_add, set]
      · rw [clearBit_cons_add, cleared]
    · rw [if_neg skipped] at h
      cases h
      obtain ⟨ne, inside⟩ := not_or.mp skipped
      obtain ⟨small, set⟩ := ctz_spec ne
      refine ⟨word.ctz.toNat, rfl, not_le.mp inside, ?_, ?_⟩
      · rw [testBit_cons_lt _ _ small, set]
      · rw [clearBit_cons_lt _ _ small]

/-- The scan only gives up when every set bit stands for a frame that does not exist. -/
theorem scan_eq_none {words : List (BitVec 64)}
    (h : scan totalFrames wordIdx words = none) {i : ℕ} (set : testBit words i) :
    totalFrames ≤ wordIdx * 64 + i := by
  induction words generalizing wordIdx i with
  | nil => simp [testBit] at set
  | cons word words ih =>
    rw [scan] at h
    by_cases skipped : word = 0#64 ∨ wordIdx * 64 + word.ctz.toNat ≥ totalFrames
    · rw [if_pos skipped] at h
      by_cases first : i < 64
      · rw [testBit_cons_lt _ _ first] at set
        rcases skipped with rfl | outside
        · simp at set
        -- the lowest set bit is past the end already
        have lowest : word.ctz.toNat ≤ i := by
          by_contra below
          rw [BitVec.getLsbD_false_of_lt_ctz (not_le.mp below)] at set
          cases set
        omega
      · obtain ⟨j, rfl⟩ := Nat.exists_eq_add_of_le' (not_lt.mp first)
        rw [testBit_cons_add] at set
        have := ih (Option.map_eq_none_iff.mp h) set
        omega
    · rw [if_neg skipped] at h
      cases h

variable {self' self : BitmapFrameAllocator}

/-- A successful call hands out a free frame and marks exactly that one used. -/
theorem allocFrame_eq_some (h : self.allocFrame = (some frame, self')) :
    self.IsFree frame ∧ frame < self.totalFrames ∧
      self' = { self with bitmap := clearBit self.bitmap frame
                          freeCount := self.freeCount - 1 } := by
  unfold allocFrame at h
  by_cases empty : self.freeCount = 0
  · rw [if_pos empty] at h
    cases h
  rw [if_neg empty] at h
  cases scanned : scan self.totalFrames 0 self.bitmap with
  | none =>
    rw [scanned] at h
    cases h
  | some result =>
    obtain ⟨found, rest⟩ := result
    rw [scanned] at h
    obtain ⟨i, position, inside, set, rfl⟩ := scan_eq_some scanned
    obtain rfl : found = i := by omega
    -- the address handed out is turned back into the number of the frame
    have address : containingAddress (self.baseAddr + found * frameSize) = found := by
      rw [self.base_eq, zero_add]
      exact Nat.mul_div_cancel found (by decide)
    simp only [address] at h
    cases h
    exact ⟨set, inside, rfl⟩

theorem allocFrame_eq_none (h : self.allocFrame = (none, self')) : self' = self := by
  unfold allocFrame at h
  by_cases empty : self.freeCount = 0
  · rw [if_pos empty] at h
    cases h
    rfl
  rw [if_neg empty] at h
  cases scanned : scan self.totalFrames 0 self.bitmap with
  | none =>
    rw [scanned] at h
    cases h
    rfl
  | some result =>
    rw [scanned] at h
    cases h

theorem isFree_allocFrame (h : self.allocFrame = (some frame, self')) (other : ℕ) :
    self'.IsFree other ↔ self.IsFree other ∧ other ≠ frame := by
  obtain ⟨-, -, rfl⟩ := allocFrame_eq_some h
  simp only [IsFree, testBit_clearBit, Bool.and_eq_true, decide_eq_true_eq]
  rw [and_comm, ne_comm]

theorem deallocFrame_eq (self : BitmapFrameAllocator) (frame : ℕ) : self.deallocFrame frame =
      if frame / 64 < self.bitmap.length ∧ ¬self.IsFree frame then
        { self with bitmap := setBit self.bitmap frame, freeCount := self.freeCount + 1 }
      else self := by
  have index : (startAddress frame - self.baseAddr) / frameSize = frame := by
    rw [self.base_eq]
    exact Nat.mul_div_cancel frame (by decide)
  simp [deallocFrame, index, IsFree, ite_and]

theorem isFree_deallocFrame (self : BitmapFrameAllocator) (frame other : ℕ) :
    (self.deallocFrame frame).IsFree other ↔
      self.IsFree other ∨ (other = frame ∧ frame / 64 < self.bitmap.length) := by
  rw [deallocFrame_eq]
  by_cases tracked : frame / 64 < self.bitmap.length
  · by_cases free : self.IsFree frame
    · rw [if_neg (fun h => h.2 free)]
      constructor
      · exact .inl
      rintro (already | ⟨rfl, -⟩)
      · exact already
      · exact free
    · rw [if_pos ⟨tracked, free⟩]
      simp only [IsFree, testBit_setBit tracked, Bool.or_eq_true, decide_eq_true_eq]
      rw [or_comm, and_iff_left tracked, @eq_comm _ frame other]
  · rw [if_neg (fun h => tracked h.1)]
    simp [tracked]

end BitmapFrameAllocator

/-! ## The memory map -/

/-- The frame lies wholly inside the region. -/
def MemoryRegion.Covers (region : MemoryRegion) (frame : ℕ) : Prop :=
  region.start ≤ startAddress frame ∧ startAddress frame + frameSize ≤ region.endAddr

def MemoryRegion.Disjoint (r r' : MemoryRegion) : Prop :=
  ∀ addr, ¬((r.start ≤ addr ∧ addr < r.endAddr) ∧ (r'.start ≤ addr ∧ addr < r'.endAddr))

def UsableDisjoint (memoryRegions : List MemoryRegion) : Prop :=
  memoryRegions.Pairwise fun r r' => r.kind = .usable → r'.kind = .usable → r.Disjoint r'

def Usable (memoryRegions : List MemoryRegion) (frame : ℕ) : Prop :=
  ∃ region ∈ memoryRegions, region.kind = .usable ∧ region.Covers frame

/-- The frames an allocator for this map manages. -/
def Managed (memoryRegions : List MemoryRegion) (reservedEnd : ℕ) (frame : ℕ) : Prop :=
  Usable memoryRegions frame ∧ reservedEnd ≤ startAddress frame

namespace BitmapFrameAllocator

/-- The count agrees with the bitmap and the free frames are those of `free`. -/
structure Marks (words : ℕ) (free : ℕ → Prop) (marked : List (BitVec 64) × ℕ) : Prop where
  length_eq : marked.1.length = words
  count_eq : marked.2 = (setBits marked.1).card
  free_iff : ∀ frame, testBit marked.1 frame ↔ free frame

theorem Marks.congr {words : ℕ} {free free' : ℕ → Prop} {marked : List (BitVec 64) × ℕ}
    (h : Marks words free marked) (same : ∀ frame, free frame ↔ free' frame) :
    Marks words free' marked :=
  ⟨h.length_eq, h.count_eq, fun frame => (h.free_iff frame).trans (same frame)⟩

variable {regions : List MemoryRegion}

section Marking

variable {words : ℕ} {free : ℕ → Prop} {marked : List (BitVec 64) × ℕ} (reservedEnd : ℕ)

theorem markFrame_marks (h : Marks words free marked) (tracked : frame / 64 < words)
    (unmarked : ¬free frame) :
    Marks words (fun f => free f ∨ (f = frame ∧ reservedEnd ≤ startAddress f))
      (markFrame reservedEnd marked (startAddress frame)) := by
  have index : startAddress frame / frameSize = frame := Nat.mul_div_cancel frame (by decide)
  have tracked' : frame / 64 < marked.1.length := h.length_eq ▸ tracked
  simp only [markFrame, index, if_pos tracked']
  by_cases reserved : startAddress frame ≥ reservedEnd
  · rw [if_pos reserved]
    have clear : testBit marked.1 frame = false := by
      rw [← Bool.not_eq_true, h.free_iff]
      exact unmarked
    refine ⟨by simp [h.length_eq], ?_, fun f => ?_⟩
    · rw [card_setBits_setBit tracked' clear, h.count_eq]
    rw [testBit_setBit tracked', Bool.or_eq_true, decide_eq_true_eq, h.free_iff, or_comm]
    refine or_congr_right ⟨?_, fun new => new.1.symm⟩
    rintro rfl
    exact ⟨rfl, reserved⟩
  · rw [if_neg reserved]
    refine h.congr fun f => ⟨.inl, ?_⟩
    rintro (already | ⟨rfl, above⟩)
    · exact already
    · exact absurd above reserved

theorem markFrames_marks (h : Marks words free marked) (count first : ℕ)
    (tracked : ∀ i < count, (first + i) / 64 < words) (unmarked : ∀ i < count, ¬free (first + i)) :
    Marks words
      (fun f => free f ∨ ((first ≤ f ∧ f < first + count) ∧ reservedEnd ≤ startAddress f))
      (markFrames reservedEnd count (startAddress first) marked) := by
  induction count generalizing first free marked with
  | zero =>
    refine h.congr fun f => ⟨.inl, ?_⟩
    rintro (already | ⟨range, -⟩)
    · exact already
    · omega
  | succ count ih =>
    have head := markFrame_marks reservedEnd h (tracked 0 (by omega)) (unmarked 0 (by omega))
    have next : startAddress first + frameSize = startAddress (first + 1) := by
      rw [startAddress, startAddress, Nat.succ_mul]
    rw [markFrames, next]
    refine (ih head (first + 1) (fun i small => ?_) fun i small => ?_).congr fun f => ?_
    · have := tracked (i + 1) (by omega)
      rwa [show first + 1 + i = first + (i + 1) by omega]
    · have := unmarked (i + 1) (by omega)
      rw [show first + 1 + i = first + (i + 1) by omega]
      rintro (already | ⟨same, -⟩)
      · exact this already
      · omega
    · rw [or_assoc, ← or_and_right]
      refine or_congr_right (and_congr_left fun _ => ?_)
      omega

theorem covers_iff (region : MemoryRegion) : region.Covers frame ↔
      (region.start + (frameSize - 1)) % 2 ^ 64 / frameSize ≤ frame ∧
        frame < region.endAddr / frameSize := by
  -- aligning the start up does not overflow
  have small := region.start_lt
  simp only [MemoryRegion.Covers, startAddress, frameSize]
  omega

theorem markRegion_marks (h : Marks words free marked)
    (tracked : ∀ frame, region.Covers frame → frame / 64 < words)
    (unmarked : region.kind = .usable → ∀ frame, region.Covers frame → ¬free frame) : Marks words
      (fun f => free f ∨ ((region.kind = .usable ∧ region.Covers f) ∧ reservedEnd ≤ startAddress f))
      (markRegion reservedEnd marked region) := by
  unfold markRegion
  by_cases usable : region.kind = .usable
  · rw [if_neg (not_not.mpr usable)]
    simp only [covers_iff] at tracked unmarked ⊢
    simp only [usable, true_and]
    generalize (region.start + (frameSize - 1)) % 2 ^ 64 / frameSize = first at *
    generalize region.endAddr / frameSize = last at *
    by_cases empty : first * frameSize ≥ last * frameSize
    · have none : last ≤ first := Nat.le_of_mul_le_mul_right empty (by decide)
      rw [if_pos empty]
      refine h.congr fun f => ⟨.inl, ?_⟩
      rintro (already | ⟨range, -⟩)
      · exact already
      · omega
    · have rounds : (last * frameSize - first * frameSize) / frameSize = last - first := by
        rw [← Nat.sub_mul]
        exact Nat.mul_div_cancel _ (by decide)
      rw [if_neg empty, rounds]
      refine (markFrames_marks reservedEnd h (last - first) first (fun i small => ?_)
        fun i small => ?_).congr fun f => ?_
      · exact tracked _ ⟨by omega, by omega⟩
      · exact unmarked usable _ ⟨by omega, by omega⟩
      · refine or_congr_right (and_congr_left fun _ => ?_)
        omega
  · rw [if_pos usable]
    exact h.congr fun f => by simp [usable]

theorem markRegions_marks (h : Marks words free marked) (disjoint : UsableDisjoint regions)
    (tracked : ∀ region ∈ regions, ∀ frame, region.Covers frame → frame / 64 < words)
    (unmarked : ∀ region ∈ regions, region.kind = .usable → ∀ frame, region.Covers frame → ¬free
      frame) : Marks words (fun f => free f ∨ Managed regions reservedEnd f)
      (regions.foldl (markRegion reservedEnd) marked) := by
  induction regions generalizing free marked with
  | nil => exact h.congr fun f => by simp [Managed, Usable]
  | cons region regions ih =>
    obtain ⟨apart, disjoint⟩ := List.pairwise_cons.mp disjoint
    have head := markRegion_marks reservedEnd h (tracked region (by simp))
      (unmarked region (by simp))
    refine (ih head disjoint (fun r mem => tracked r (by simp [mem]))
      fun r mem usable frame covers => ?_).congr fun f => ?_
    · -- a frame of a later region is in no earlier one, so its bit is not set twice
      rintro (already | ⟨⟨usable', covers'⟩, -⟩)
      · exact unmarked r (by simp [mem]) usable frame covers already
      refine apart r mem usable' usable (startAddress frame)
        ⟨⟨covers'.1, ?_⟩, covers.1, ?_⟩
      · exact lt_of_lt_of_le (Nat.lt_add_of_pos_right (by decide)) covers'.2
      · exact lt_of_lt_of_le (Nat.lt_add_of_pos_right (by decide)) covers.2
    · simp only [Managed, Usable, List.mem_cons, exists_eq_or_imp]
      tauto

end Marking

/-- The bitmap reaches up to the end of every region. -/
theorem lt_totalFrames_of_covers (reservedEnd : ℕ)
    (mem : region ∈ regions) (covers : region.Covers frame) :
    frame < (new regions reservedEnd).totalFrames := by
  have highest : region.endAddr ≤ (regions.map (·.endAddr)).max?.getD 0 :=
    List.le_max?_getD_of_mem (List.mem_map_of_mem mem)
  have inside := covers.2
  simp only [new, startAddress, frameSize] at inside ⊢
  omega

/-- A fresh allocator has exactly the managed frames free and counts them right. -/
theorem new_marks (disjoint : UsableDisjoint regions) (reservedEnd : ℕ) :
    Marks (((new regions reservedEnd).totalFrames + 63) / 64) (Managed regions reservedEnd)
      ((new regions reservedEnd).bitmap, (new regions reservedEnd).freeCount) := by
  have empty : Marks (((new regions reservedEnd).totalFrames + 63) / 64) (fun _ => False)
      (List.replicate (((new regions reservedEnd).totalFrames + 63) / 64) 0#64, 0) := by
    have clear (i : ℕ) : testBit (List.replicate
        (((new regions reservedEnd).totalFrames + 63) / 64) 0#64) i = false :=
      testBit_replicate_zero _ i
    refine ⟨List.length_replicate, ?_, fun frame => by simp [clear]⟩
    rw [eq_comm, Finset.card_eq_zero, Finset.eq_empty_iff_forall_notMem]
    intro i set
    rw [mem_setBits, clear] at set
    cases set
  refine (markRegions_marks reservedEnd empty disjoint (fun region mem frame covers => ?_)
    fun _ _ _ _ _ => id).congr fun f => Iff.of_eq (false_or _)
  have := lt_totalFrames_of_covers reservedEnd mem covers
  omega

end BitmapFrameAllocator

/-! ## The pool of managed frames -/

/-- An allocator call, with what it returned. -/
inductive Call where
  | alloc (result : Option ℕ)
  | dealloc (frame : ℕ)

/-- The abstract allocator: frames are taken from the pool and given back to it, and a
request fails only when the pool is exhausted. -/
inductive PoolStep (pool : Set ℕ) : Set ℕ → Call → Set ℕ → Prop
  | take {outstanding : Set ℕ} {frame : ℕ} :
      frame ∈ pool → frame ∉ outstanding →
        PoolStep pool outstanding (.alloc (some frame)) (insert frame outstanding)
  | exhausted {outstanding : Set ℕ} :
      pool ⊆ outstanding → PoolStep pool outstanding (.alloc none) outstanding
  | giveBack {outstanding : Set ℕ} {frame : ℕ} :
      frame ∈ outstanding → PoolStep pool outstanding (.dealloc frame) (outstanding \ {frame})

/-- An allocator together with the frames it has handed out. -/
structure Tracked where
  allocator : BitmapFrameAllocator
  outstanding : Set ℕ

/-- The calls of clients that only give back what they hold. -/
inductive Tracked.Step : Tracked → Call → Tracked → Prop
  | alloc {s : Tracked} {frame : ℕ} {allocator : BitmapFrameAllocator} :
      s.allocator.allocFrame = (some frame, allocator) →
        Step s (.alloc (some frame)) ⟨allocator, insert frame s.outstanding⟩
  | allocFailed {s : Tracked} {allocator : BitmapFrameAllocator} :
      s.allocator.allocFrame = (none, allocator) →
        Step s (.alloc none) ⟨allocator, s.outstanding⟩
  | dealloc {s : Tracked} {frame : ℕ} :
      frame ∈ s.outstanding →
        Step s (.dealloc frame) ⟨s.allocator.deallocFrame frame, s.outstanding \ {frame}⟩

/-- The bitmap marks the pool's frames free, except those handed out. -/
structure Represents (pool : Set ℕ) (s : Tracked) : Prop where
  tracked : ∀ frame ∈ pool, frame < s.allocator.totalFrames
  words : s.allocator.totalFrames ≤ 64 * s.allocator.bitmap.length
  held : s.outstanding ⊆ pool
  free_iff : ∀ frame, s.allocator.IsFree frame ↔ frame ∈ pool ∧ frame ∉ s.outstanding
  count_eq : s.allocator.freeCount = (setBits s.allocator.bitmap).card

namespace Represents

variable {pool : Set ℕ} {s t : Tracked} {call : Call}

theorem allocFrame_eq_none_iff (h : Represents pool s) :
    s.allocator.allocFrame.1 = none ↔ pool ⊆ s.outstanding := by
  constructor
  · intro refused frame mem
    by_contra held
    -- a free frame keeps the count above zero, and the scan finds it
    have free := (h.free_iff frame).mpr ⟨mem, held⟩
    have counted : s.allocator.freeCount ≠ 0 := by
      rw [h.count_eq]
      exact Finset.card_ne_zero_of_mem (mem_setBits.mpr free)
    rw [BitmapFrameAllocator.allocFrame, if_neg counted] at refused
    cases scanned : BitmapFrameAllocator.scan s.allocator.totalFrames 0 s.allocator.bitmap with
    | none =>
      have := BitmapFrameAllocator.scan_eq_none scanned free
      have := h.tracked frame mem
      omega
    | some result =>
      rw [scanned] at refused
      cases refused
  · intro exhausted
    cases called : s.allocator.allocFrame with
    | mk result allocator =>
      cases result with
      | none => rfl
      | some frame =>
        obtain ⟨free, -, -⟩ := BitmapFrameAllocator.allocFrame_eq_some called
        obtain ⟨mem, fresh⟩ := (h.free_iff frame).mp free
        exact absurd (exhausted mem) fresh

theorem mem_of_allocFrame (h : Represents pool s) {allocator : BitmapFrameAllocator}
    (called : s.allocator.allocFrame = (some frame, allocator)) :
    frame ∈ pool ∧ frame ∉ s.outstanding :=
  (h.free_iff frame).mp (BitmapFrameAllocator.allocFrame_eq_some called).1

theorem step (h : Represents pool s) (step : Tracked.Step s call t) : Represents pool t := by
  cases step with
  | @alloc frame allocator called =>
    obtain ⟨member, fresh⟩ := h.mem_of_allocFrame called
    have free := BitmapFrameAllocator.isFree_allocFrame called
    obtain ⟨set, -, rfl⟩ := BitmapFrameAllocator.allocFrame_eq_some called
    refine ⟨h.tracked, ?_, Set.insert_subset member h.held, fun other => ?_, ?_⟩
    · simpa using h.words
    · rw [free, h.free_iff, Set.mem_insert_iff, not_or, and_assoc, and_comm (b := other ≠ frame)]
    · rw [card_setBits_clearBit set, h.count_eq]
  | allocFailed called =>
    cases BitmapFrameAllocator.allocFrame_eq_none called
    exact h
  | @dealloc frame held =>
    have member := h.held held
    have used : ¬s.allocator.IsFree frame := fun free => ((h.free_iff frame).mp free).2 held
    have word : frame / 64 < s.allocator.bitmap.length := by
      have := h.tracked frame member
      have := h.words
      omega
    have effect := BitmapFrameAllocator.deallocFrame_eq s.allocator frame
    rw [if_pos ⟨word, used⟩] at effect
    refine ⟨?_, ?_, Set.sdiff_subset.trans h.held, fun other => ?_, ?_⟩
    · rw [effect]
      exact h.tracked
    · rw [effect]
      simpa using h.words
    · rw [BitmapFrameAllocator.isFree_deallocFrame, h.free_iff]
      by_cases same : other = frame
      · subst same
        simp [member, word]
      · simp [same]
    · rw [effect, card_setBits_setBit word (Bool.not_eq_true _ ▸ used), h.count_eq]

/-- The tracked allocator refines the abstract pool. -/
theorem simulates (h : Represents pool s) (step : Tracked.Step s call t) :
    PoolStep pool s.outstanding call t.outstanding := by
  cases step with
  | alloc called =>
    obtain ⟨mem, fresh⟩ := h.mem_of_allocFrame called
    exact .take mem fresh
  | allocFailed called => exact .exhausted (h.allocFrame_eq_none_iff.mp (by rw [called]))
  | dealloc held => exact .giveBack held

end Represents

/-! ## Runs from a fresh allocator -/

/-- A fresh allocator, with nothing handed out. -/
def Tracked.new (memoryRegions : List MemoryRegion) (reservedEnd : ℕ) : Tracked :=
  ⟨.new memoryRegions reservedEnd, ∅⟩

section FreshRun

variable {memoryRegions : List MemoryRegion} (disjoint : UsableDisjoint memoryRegions)
  (reservedEnd : ℕ)
include disjoint

theorem represents_new : Represents {frame | Managed memoryRegions reservedEnd frame}
      (.new memoryRegions reservedEnd) := by
  have marks := BitmapFrameAllocator.new_marks disjoint reservedEnd
  refine ⟨?_, ?_, Set.empty_subset _, fun frame => ?_, marks.count_eq⟩
  · rintro frame ⟨⟨region, mem, -, covers⟩, -⟩
    exact BitmapFrameAllocator.lt_totalFrames_of_covers reservedEnd mem covers
  · have := marks.length_eq
    simp only [Tracked.new] at this ⊢
    omega
  · exact (marks.free_iff frame).trans (by simp [Tracked.new])

/-- Every run of a fresh allocator is a run of the pool of managed frames. -/
theorem run_pool {calls : List Call} {s : Tracked}
    (run : Run Tracked.Step (.new memoryRegions reservedEnd) calls s) :
    Run (PoolStep {frame | Managed memoryRegions reservedEnd frame}) ∅ calls s.outstanding := by
  obtain ⟨outstanding, pooled, rfl, -⟩ := run.simulate
    (fun s outstanding => s.outstanding = outstanding ∧
      Represents {frame | Managed memoryRegions reservedEnd frame} s)
    (fun step ⟨same, h⟩ => ⟨_, same ▸ h.simulates step, rfl, h.step step⟩)
    ⟨rfl, represents_new disjoint reservedEnd⟩
  exact pooled

/-- At every point of every run that gives back only frames it holds, the next request
returns a frame that is usable, not reserved and not held; it is refused exactly when all
such frames are held; and the free count is the number of set bits. -/
theorem allocFrame_run {calls : List Call} {s : Tracked}
    (run : Run Tracked.Step (.new memoryRegions reservedEnd) calls s) :
    (∀ frame allocator, s.allocator.allocFrame = (some frame, allocator) →
      frame ∉ s.outstanding ∧ Usable memoryRegions frame ∧ reservedEnd ≤ startAddress frame) ∧
    (s.allocator.allocFrame.1 = none ↔
      ∀ frame, Usable memoryRegions frame → reservedEnd ≤ startAddress frame →
        frame ∈ s.outstanding) ∧ s.allocator.freeCount = (setBits s.allocator.bitmap).card := by
  have h := run.invariant (fun step h => h.step step) (represents_new disjoint reservedEnd)
  refine ⟨fun frame allocator called => ?_, ?_, h.count_eq⟩
  · obtain ⟨managed, fresh⟩ := h.mem_of_allocFrame called
    exact ⟨fresh, managed.1, managed.2⟩
  · rw [h.allocFrame_eq_none_iff]
    exact ⟨fun all frame usable above => all ⟨usable, above⟩,
      fun all frame managed => all frame managed.1 managed.2⟩

end FreshRun

/-- One frame and a half of bootloader data below five frames of usable memory. -/
def smallMap : List MemoryRegion :=
  [⟨0, 0x1800, .bootloader, by decide⟩, ⟨0x1800, 0x6800, .usable, by decide⟩]

/-- With the first three frames reserved, frame `3` is handed out first. -/
theorem allocFrame_run_smallMap : (Tracked.new smallMap 0x3000).allocator.allocFrame.1 = some 3 ∧
    ∃ s : Tracked, Run Tracked.Step (.new smallMap 0x3000) [.alloc (some 3)] s ∧
      (∀ frame allocator, s.allocator.allocFrame = (some frame, allocator) →
        frame ∉ s.outstanding ∧ Usable smallMap frame ∧ 0x3000 ≤ startAddress frame) ∧
      (s.allocator.allocFrame.1 = none ↔
        ∀ frame, Usable smallMap frame → 0x3000 ≤ startAddress frame → frame ∈ s.outstanding) ∧
      s.allocator.freeCount = (setBits s.allocator.bitmap).card := by
  have first : (Tracked.new smallMap 0x3000).allocator.allocFrame.1 = some 3 := by
    decide +kernel
  have called : (Tracked.new smallMap 0x3000).allocator.allocFrame =
      (some 3, (Tracked.new smallMap 0x3000).allocator.allocFrame.2) := by
    rw [← first]
  have run := Run.cons (Tracked.Step.alloc called) (Run.nil _)
  exact ⟨first, _, run, allocFrame_run (by simp [UsableDisjoint, smallMap]) 0x3000 run⟩

theorem run_pool_smallMap : ∃ s, Run Tracked.Step (.new smallMap 0x3000) [.alloc (some 3)] s ∧
    Run (PoolStep {frame | Managed smallMap 0x3000 frame}) ∅ [.alloc (some 3)] s.outstanding := by
  have first : (Tracked.new smallMap 0x3000).allocator.allocFrame.1 = some 3 := by decide +kernel
  have called : (Tracked.new smallMap 0x3000).allocator.allocFrame =
      (some 3, (Tracked.new smallMap 0x3000).allocator.allocFrame.2) := by
    rw [← first]
  have run := Run.cons (Tracked.Step.alloc called) (Run.nil _)
  exact ⟨_, run, run_pool (by simp [UsableDisjoint, smallMap]) 0x3000 run⟩

end SmartOs.Memory
