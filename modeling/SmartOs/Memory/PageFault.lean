/-
# Swapping a page in

`handle_page_fault` of `memory/swap.rs` reads a page that is swapped out into a new frame and maps
it. `swap_in` takes the page out of the swap table before it asks for the frame, reads the disk or
returns to its caller, and no exit puts it back: whatever fails, the page is not found again.
-/

import SmartOs.Memory.Cow
import SmartOs.Memory.Swap

namespace SmartOs.Memory

open Drivers

/-- The address space in `CR3`, physical memory, the statics of the module and the disk. -/
structure FaultState (δ : Type) where
  pml4 : Space
  phys : Phys
  swap : Swap
  disk : δ

section Handler

variable {δ : Type} (dev : Device δ) (pid vaddr : ℕ)

/-- `swap_in` with the frame that it allocates, fills, and gives back after a read error. -/
def swapInFrame (s : FaultState δ) : Option ℕ × FaultState δ :=
  match s.swap.table (.of pid vaddr), s.phys.frames.allocFrame with
  | none, _ => (none, s)
  | some _, (none, _) =>
    let (_, swap, disk) := swapIn dev pid vaddr false s.swap s.disk
    (none, { s with swap, disk })
  | some _, (some frame, frames) =>
    match swapIn dev pid vaddr true s.swap s.disk with
    | (none, swap, disk) =>
      (none, { s with swap, disk, phys := { s.phys with frames := frames.deallocFrame frame } })
    | (some sectors, swap, disk) =>
      let data := Function.update s.phys.data frame fun i =>
        (sectors.flatMap Subtype.val).getD i 0
      (some frame, { s with swap, disk, phys := { s.phys with frames, data } })

/-- Bits 0, 1 and 2 of the error code: the page is present, the access is a write, and from user
mode. -/
def handlePageFault (errorCode : ℕ) (s : FaultState δ) : Bool × FaultState δ :=
  match if errorCode.testBit 1 && errorCode.testBit 0 then handleCowFault s.pml4 vaddr s.phys
    else none with
  | some (pml4, phys) => (true, { s with pml4, phys })
  | none =>
    if !errorCode.testBit 0 && errorCode.testBit 2 && (s.swap.table (.of pid vaddr)).isSome then
      match swapInFrame dev pid vaddr s with
      | (none, s) => (false, s)
      | (some frame, s) =>
        let (pml4, frames, mapped) :=
          mapPage s.pml4 (pageOf vaddr) frame ⟨true, true, false, false⟩ s.phys.frames
        (mapped, { s with pml4, phys := { s.phys with frames } })
    else (false, s)

/-- The page is in a slot that no other page gets, and no frame is taken. -/
structure KeepsPage (key : SwapKey) (s t : FaultState δ) : Prop where
  recorded : ∃ slot, t.swap.table key = some slot ∧ slot ∉ t.swap.freeSlots
  frames : ∀ frame, s.phys.frames.IsFree frame → t.phys.frames.IsFree frame

variable {dev pid vaddr}

theorem swapIn_table (frame : Bool) (swap : Swap) (disk : δ) :
    (swapIn dev pid vaddr frame swap disk).2.1.table (.of pid vaddr) = none := by
  unfold swapIn
  cases found : swap.table (.of pid vaddr) with
  | none => exact found
  | some slot =>
    dsimp only
    split_ifs
    · exact Function.update_self ..
    · split <;> exact Function.update_self ..

theorem swapInFrame_table (s : FaultState δ) :
    (swapInFrame dev pid vaddr s).2.swap.table (.of pid vaddr) = none := by
  unfold swapInFrame
  split
  next => assumption
  next => exact swapIn_table false s.swap s.disk
  next frame frames _ _ =>
    have gone := @swapIn_table δ dev pid vaddr true s.swap s.disk
    split
    all_goals
      next result =>
        rw [result] at gone
        exact gone

/-- A fault on a page that is not present, from user mode, is left to `swap_in`. -/
theorem handlePageFault_table {errorCode : ℕ} (absent : errorCode.testBit 0 = false)
    (user : errorCode.testBit 2) {s : FaultState δ}
    (swapped : (s.swap.table (.of pid vaddr)).isSome) :
    (handlePageFault dev pid vaddr errorCode s).2.swap.table (.of pid vaddr) = none := by
  have gone := @swapInFrame_table δ dev pid vaddr s
  simp only [handlePageFault, absent, user, swapped, Bool.and_false, Bool.not_false, Bool.and_true,
    if_true, Bool.false_eq_true, if_false]
  split
  all_goals
    next result =>
      rw [result] at gone
      exact gone

theorem not_keepsPage_of_table {key : SwapKey} {s t : FaultState δ}
    (gone : t.swap.table key = none) : ¬KeepsPage key s t := by
  rintro ⟨⟨slot, found, -⟩, -⟩
  rw [gone] at found
  cases found

/-- No failure keeps the page: not one of `swap_in`, nor one of the handler. -/
theorem failed_swapIn_loses_page (s : FaultState δ) (errorCode : ℕ)
    (swapped : (s.swap.table (.of pid vaddr)).isSome) : ((swapInFrame dev pid vaddr s).1 = none →
        ¬KeepsPage (.of pid vaddr) s (swapInFrame dev pid vaddr s).2) ∧
      (errorCode.testBit 0 = false → errorCode.testBit 2 →
        (handlePageFault dev pid vaddr errorCode s).1 = false →
          ¬KeepsPage (.of pid vaddr) s (handlePageFault dev pid vaddr errorCode s).2) :=
  ⟨fun _ => not_keepsPage_of_table (swapInFrame_table s),
    fun absent user _ => not_keepsPage_of_table (handlePageFault_table absent user swapped)⟩

end Handler

/-- A page is swapped out and there is no frame left. -/
def outOfFrames : FaultState (ℕ → Sector) where
  pml4 := .node 0 true fun _ => .absent
  phys := ⟨⟨[], 0, 0, 0, Nat.zero_eq⟩, fun _ => 0, fun _ _ => 0⟩
  swap := ⟨Function.update (fun _ => none) (.of 1 0x400000) (some ⟨1024, 8⟩), 1032, [], true⟩
  disk := fun _ => sectorOf [] 0

theorem failed_swapIn_outOfFrames :
    (handlePageFault (virtioDisk 2048) 1 0x400000 4 outOfFrames).1 = false ∧
      ¬KeepsPage (.of 1 0x400000) outOfFrames
        (handlePageFault (virtioDisk 2048) 1 0x400000 4 outOfFrames).2 :=
  ⟨rfl, (failed_swapIn_loses_page outOfFrames 4 rfl).2 rfl rfl rfl⟩

theorem not_keepsPage_outOfFrames :
    ¬∀ s : FaultState (ℕ → Sector), (s.swap.table (.of 1 0x400000)).isSome →
      (swapInFrame (virtioDisk 2048) 1 0x400000 s).1 = none →
        KeepsPage (.of 1 0x400000) s (swapInFrame (virtioDisk 2048) 1 0x400000 s).2 :=
  fun keeps => not_keepsPage_of_table (swapInFrame_table _) (keeps outOfFrames rfl rfl)

end SmartOs.Memory
