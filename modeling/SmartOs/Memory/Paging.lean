/-
# User page tables

A user address space is the lower half of a four-level page table: 256 entries in the
PML4 and 512 in every table below it. It is a radix tree whose nodes are labelled with
the frame that holds the table and whose leaves are the page table entries of mapped
pages. The gate of a node is `WRITABLE` in the entry that leads to its table: user code
can write to a page only if all entries on the way allow it. Intermediate tables are
allocated on demand when a page is mapped, and every table and data frame goes back to the
frame allocator when the space is freed.

User space has no huge pages, since nothing ever maps one; the `HUGE_PAGE` tests of the
source skip entries that cannot occur. The kernel half is shared by all spaces and never
touched here. `USER_ACCESSIBLE` in the entries of tables is not modelled, since it is set
wherever it is set in an entry below.
-/

import Mathlib.Data.Nat.Bitwise
import SmartOs.CS.RadixTree
import SmartOs.Memory.Frame

namespace SmartOs.Memory

open SmartOs.CS SmartOs.Math

/-- The flags of a present page table entry that matter here. `bit9` is the available bit
that marks copy-on-write pages. -/
structure PageTableFlags where
  writable : Bool
  userAccessible : Bool
  bit9 : Bool
  noExecute : Bool
  deriving DecidableEq

/-- A present page table entry. -/
structure Pte where
  frame : ℕ
  flags : PageTableFlags
  deriving DecidableEq

/-- How many entries a table with `level` table levels below it has in user space. -/
def fanout : ℕ → ℕ
  | 3 => 256
  | _ => 512

/-- The four table indices of a user page. -/
abbrev Page := TreePath fanout 4

/-- An entry at some level: absent, a mapped page, or a table in a frame of its own. -/
abbrev Slot := RadixTree fanout ℕ Pte

/-- A user address space, given by its PML4. -/
abbrev Space := Slot 4

/-! ## Virtual addresses -/

/-- `(addr >> shift) & 0x1FF`. -/
def tableIndex (shift addr : ℕ) : ℕ := (addr >>> shift) &&& 0x1FF

/-- `Page::containing_address`, by its table indices. -/
def pageOf (addr : ℕ) : Page :=
  .cons (Fin.ofNat 256 (tableIndex 39 addr)) <| .cons (Fin.ofNat 512 (tableIndex 30 addr)) <|
    .cons (Fin.ofNat 512 (tableIndex 21 addr)) <| .cons (Fin.ofNat 512 (tableIndex 12 addr)) .nil

def pageOffset (addr : ℕ) : ℕ := addr &&& 0xFFF

/-- The first address above user space. -/
def userEnd : ℕ := 0x0000800000000000

/-! ## Building tables -/

/-- The frame allocator as the supply of frames for tables. -/
def frameSupply : Supply BitmapFrameAllocator ℕ where
  draw frames :=
    match frames.allocFrame with
    | (none, _) => none
    | (some frame, frames) => some (frame, frames)
  Available frames frame := frames.IsFree frame
  draw_spec := by
    intro s s' label drawn
    cases called : s.allocFrame with
    | mk result rest =>
      cases result with
      | none => simp [called] at drawn
      | some frame =>
        simp only [called, Option.some.injEq, Prod.mk.injEq] at drawn
        obtain ⟨rfl, rfl⟩ := drawn
        exact ⟨(BitmapFrameAllocator.allocFrame_eq_some called).1,
          BitmapFrameAllocator.isFree_allocFrame called⟩

/-- A PML4 with an empty user half. -/
def createUserPageTable (frames : BitmapFrameAllocator) : Option (Space × BitmapFrameAllocator) :=
  match frames.allocFrame with
  | (none, _) => none
  | (some frame, frames) => some (.node frame true fun _ => .absent, frames)

/-- Map a page, creating the tables on the way. As `map_to` does, the entries of the tables
get `WRITABLE` if the page has it, and keep it otherwise. The flag tells whether the page was
mapped: it is not if it is mapped already or no frame is left for a table. -/
def mapPage (pml4 : Space) (page : Page) (frame : ℕ) (flags : PageTableFlags)
    (frames : BitmapFrameAllocator) : Space × BitmapFrameAllocator × Bool :=
  pml4.insert frameSupply flags.writable ⟨frame, flags⟩ page frames

/-! ## Freeing tables -/

/-- What the loops of `free_page_table_level` and its callers do for one entry: free
everything below it, then its own frame. -/
def freeEntry : {level : ℕ} → Slot level → BitmapFrameAllocator → BitmapFrameAllocator
  | _, .absent, frames => frames
  | _, .leaf pte, frames => frames.deallocFrame pte.frame
  | _, .node table _ entries, frames =>
    ((List.finRange _).foldl (fun frames i => freeEntry (entries i) frames) frames).deallocFrame
      table

/-- Recursively free the entries of a page table, but not the table itself. -/
def freePageTableLevel {level : ℕ} (entries : Fin (fanout level) → Slot level)
    (frames : BitmapFrameAllocator) : BitmapFrameAllocator :=
  (List.finRange _).foldl (fun frames i => freeEntry (entries i) frames) frames

/-- Free a user page table and all frames it maps in the lower half. -/
def freeUserPageTable (pml4 : Space) (frames : BitmapFrameAllocator) : BitmapFrameAllocator :=
  freeEntry pml4 frames

/-- Free the user half but keep the PML4. -/
def freeUserPagesOnly : Space → BitmapFrameAllocator → Space × BitmapFrameAllocator
  | .absent, frames => (.absent, frames)
  | .node pml4 gate entries, frames =>
    (.node pml4 gate fun _ => .absent, freePageTableLevel entries frames)

/-! ## What tables hold -/

/-- Some page is mapped to the frame. -/
def Maps {level : ℕ} (slot : Slot level) (frame : ℕ) : Prop :=
  ∃ page pte, slot.lookup page = some pte ∧ pte.frame = frame

/-- The frame belongs to the slot: it holds one of its tables or is mapped by it. -/
def Occupies {level : ℕ} (slot : Slot level) (frame : ℕ) : Prop :=
  slot.Labels frame ∨ Maps slot frame

variable {level frame : ℕ} {entries : Fin (fanout level) → Slot level}

theorem Occupies.of_entry {table : ℕ} {gate : Bool}
    {i : Fin (fanout level)} (h : Occupies (entries i) frame) :
    Occupies (.node table gate entries) frame := by
  rcases h with label | ⟨page, pte, found, same⟩
  · exact .inl (.inr ⟨i, label⟩)
  · exact .inr ⟨.cons i page, pte, found, same⟩

/-- If freeing each entry frees only what belongs to it, so does the loop over all. -/
theorem isFree_of_freePageTableLevel
    (each : ∀ i frames, (freeEntry (entries i) frames).IsFree frame → frames.IsFree frame ∨
      Occupies (entries i) frame) (frames : BitmapFrameAllocator)
    (free : (freePageTableLevel entries frames).IsFree frame) :
    frames.IsFree frame ∨ ∃ i, Occupies (entries i) frame := by
  unfold freePageTableLevel at free
  generalize List.finRange (fanout level) = indices at free
  induction indices generalizing frames with
  | nil => exact .inl free
  | cons i indices ih =>
    rcases ih _ free with first | later
    · exact (each i frames first).imp_right fun occupied => ⟨i, occupied⟩
    · exact .inr later

/-- Freeing an entry frees nothing but the frames that belong to it. -/
theorem isFree_of_freeEntry (slot : Slot level) (frames : BitmapFrameAllocator)
    (free : (freeEntry slot frames).IsFree frame) : frames.IsFree frame ∨ Occupies slot frame := by
  induction slot generalizing frames with
  | absent => exact .inl free
  | leaf pte =>
    rcases (BitmapFrameAllocator.isFree_deallocFrame _ _ _).mp free with before | ⟨rfl, -⟩
    · exact .inl before
    · exact .inr (.inr ⟨.nil, pte, rfl, rfl⟩)
  | node table gate entries ih =>
    rcases (BitmapFrameAllocator.isFree_deallocFrame _ _ _).mp free with inner | ⟨rfl, -⟩
    · refine (isFree_of_freePageTableLevel (fun i frames => ih i frames) frames inner).imp_right ?_
      rintro ⟨i, occupied⟩
      exact occupied.of_entry
    · exact .inr (.inl (.inl rfl))

end SmartOs.Memory
