/-
# Copy-on-write under forks and writes

The purpose of copy-on-write is that a fork looks like a copy. In the ideal memory every process
has its own bytes: a fork gives the child those of its parent, and a write changes those of its
process. As long as frames can be allocated and no process exits, the reference count of a shared
frame is exactly the number of pages that map it, and a writable page is the only one on its frame.

What processes read is the ideal memory as long as no write is lost. The child of a fork gets its
tables without `WRITABLE`, and a write fault makes only the entry of the page writable, so none of
its writes succeeds.

A count starts to be kept when a frame is shared first, and then it includes the owner. It cannot
overflow: each process that shares a frame has cost a frame for its page table, and the bitmap of
all frames fits into the kernel heap.
-/

import SmartOs.Memory.Isolation
import Mathlib.Data.Set.Card

namespace SmartOs.Memory

open SmartOs.CS SmartOs.Math Function Option Finset

variable {shared : List (Page × Pte)} {byte : UInt8}

/-! ## Allocations that succeed -/

/-- Every page that a fork shares is mapped in the child, since no allocation of a table fails. -/
def SharesAll : List (Page × Pte) → ForkState → Prop
  | [], _ => True
  | leaf :: rest, st =>
    (mapPage st.child leaf.1 leaf.2.frame leaf.2.flags.cow st.frames).2.2 ∧
      SharesAll rest (sharePage leaf.1 leaf.2 st)

theorem sharePage_child (page : Page) (pte : Pte) (st : ForkState) (other : Page) :
    (sharePage page pte st).child.lookup other =
      if (mapPage st.child page pte.frame pte.flags.cow st.frames).2.2 ∧ other = page then
        some pte.cow else st.child.lookup other :=
  (RadixTree.insert_spec frameSupply pte.flags.cow.writable (⟨pte.frame, pte.flags.cow⟩ : Pte)
    st.child page st.frames).lookup_eq other

variable {st : ForkState}

theorem sharePage_child_some {page other : Page} {pte entry : Pte}
    (found : st.child.lookup other = some entry) :
    (sharePage page pte st).child.lookup other = some entry := by
  have inserted := RadixTree.insert_spec frameSupply pte.flags.cow.writable
    (⟨pte.frame, pte.flags.cow⟩ : Pte) st.child page st.frames
  rw [sharePage_child, if_neg, found]
  rintro ⟨done, rfl⟩
  rw [inserted.vacant done] at found
  cases found

theorem foldl_sharePage_child_some {other : Page} {entry : Pte}
    (found : st.child.lookup other = some entry) :
    (shared.foldl (fun st (leaf : _ × Pte) => sharePage leaf.1 leaf.2 st) st).child.lookup other =
      some entry := by
  induction shared generalizing st with
  | nil => exact found
  | cons leaf rest ih => exact ih (sharePage_child_some found)

theorem foldl_sharePage_child (all : SharesAll shared st)
    {leaf : Page × Pte} (mem : leaf ∈ shared) :
    (shared.foldl (fun st (leaf : _ × Pte) => sharePage leaf.1 leaf.2 st) st).child.lookup leaf.1 =
      some leaf.2.cow := by
  induction shared generalizing st with
  | nil => cases mem
  | cons first rest ih =>
    obtain ⟨mapped, later⟩ := all
    rcases List.mem_cons.mp mem with rfl | mem
    · rw [List.foldl_cons]
      refine foldl_sharePage_child_some ?_
      rw [sharePage_child, if_pos ⟨mapped, rfl⟩]
    · exact ih later mem

/-! ## Accesses -/

/-- What processes do: fork, and write a byte. -/
inductive Access where
  | fork (pid : ℕ)
  | write (pid addr : ℕ) (byte : UInt8)

/-- What each process should read at each address. -/
abbrev Ideal := ℕ → ℕ → Option UInt8

namespace Kernel

/-- The page of the address is present and marked for copy-on-write. -/
def marked (s : Kernel) (pid addr : ℕ) : Bool :=
  ((s.entry pid (pageOf addr)).map (·.flags.bit9)).getD false

/-- A write to a marked page goes through the fault handler and is then retried. -/
def access (s : Kernel) : Access → Option Kernel
  | .fork pid => s.step (.fork pid)
  | .write pid addr byte =>
    if s.marked pid addr then
      (s.step (.cowFault pid addr)).bind fun t => t.step (.store pid addr byte)
    else s.step (.store pid addr byte)

/-- No allocation of frames fails. -/
def Allocates (s : Kernel) : Access → Prop
  | .fork pid => ∀ pml4 child frames, s.spaces pid = some pml4 →
      createUserPageTable s.frames = some (child, frames) →
      SharesAll pml4.leaves ⟨pml4, child, frames, s.refs⟩
  | .write pid addr _ => ∀ pte, s.entry pid (pageOf addr) = some pte → pte.flags.bit9 →
      1 < s.refs pte.frame → s.frames.allocFrame.1.isSome

/-- The entries of the tables above the page let user code write to it. -/
def tablesOpen (s : Kernel) (pid addr : ℕ) : Bool :=
  ((s.spaces pid).map fun pml4 => pml4.isOpen (pageOf addr)).getD false

/-- A user program may write to the address: the page is writable, or it is a marked one. -/
def Permits (s : Kernel) (pid addr : ℕ) : Prop :=
  addr < userEnd ∧ ∃ pte, s.entry pid (pageOf addr) = some pte ∧ pte.flags.userAccessible ∧
    (pte.flags.writable ∨ pte.flags.bit9)

open Classical in
/-- The ideal memory after an access. -/
noncomputable def ideal (s : Kernel) (memory : Ideal) : Access → Ideal
  | .fork pid => update memory s.nextPid (memory pid)
  | .write pid addr byte =>
    if s.Permits pid addr then
      update memory pid (update (memory pid) addr (some byte))
    else memory

/-- The pages that map a frame. -/
def mappings (s : Kernel) (frame : ℕ) : Set (ℕ × Page) :=
  { place | ∃ pte, s.entry place.1 place.2 = some pte ∧ pte.frame = frame }

/-- Counts are exact, and a writable page is alone on its frame. -/
structure CowSafe (s : Kernel) : Prop where
  counts : ∀ frame, 2 ≤ (s.mappings frame).ncard → s.refs frame = (s.mappings frame).ncard
  writable : ∀ {pid page pte}, s.entry pid page = some pte → pte.flags.writable →
    s.mappings pte.frame = {(pid, page)}

/-- What copy-on-write is for. -/
structure CowCorrect (s : Kernel) (memory : Ideal) : Prop extends s.CowSafe where
  reads : ∀ {pid}, (s.spaces pid).isSome → s.view pid = memory pid

/-- An access that has the effect it should have: no write that the page permits is refused by the
tables above it, unless the byte is there already. -/
def Effective (s : Kernel) : Access → Prop
  | .fork _ => True
  | .write pid addr byte =>
    s.Permits pid addr → s.tablesOpen pid addr ∨ s.view pid addr = some byte

/-! ## Forks -/

variable {s t : Kernel} {pid frame : ℕ} {pml4 : Space}

theorem WellFormed.unborn (h : s.WellFormed) : ¬s.MapsFrame s.nextPid frame := by
  rintro ⟨space, alive, -⟩
  exact absurd (h.live_lt alive) (lt_irrefl _)

section Fork

variable (live : s.spaces pid = some pml4) (forked : s.fork pid pml4 = some t)
  (allocates : s.Allocates (.fork pid))

include live forked allocates

theorem entry_fork (p : ℕ) (page : Page) :
    t.entry p page = if p = s.nextPid ∨ p = pid then (s.entry pid page).map Pte.cow
      else s.entry p page := by
  obtain ⟨st, called, rfl⟩ := map_eq_some_iff.mp forked
  have spec := cowFork_forked called
  have child : st.child.lookup page = (pml4.lookup page).map Pte.cow := by
    cases found : pml4.lookup page with
    | none =>
      cases mapped : st.child.lookup page with
      | none => rfl
      | some pte =>
        obtain ⟨old, before, -⟩ := spec.child_lookup page pte mapped
        cases found.symm.trans before
    | some pte =>
      rw [cowFork_eq, map_eq_some_iff] at called
      obtain ⟨⟨child, frames⟩, made, rfl⟩ := called
      exact foldl_sharePage_child (allocates pml4 child frames live made)
        (RadixTree.mem_leaves.mpr found)
  by_cases new : p = s.nextPid
  · simp [entry, new, child, live]
  by_cases same : p = pid
  · simp [entry, same, spec.parent_lookup, live, show pid ≠ s.nextPid from same ▸ new]
  · simp [entry, new, same]

theorem mapsFrame_fork {p : ℕ} : t.MapsFrame p frame ↔
      if p = s.nextPid ∨ p = pid then s.MapsFrame pid frame else s.MapsFrame p frame := by
  simp only [mapsFrame_iff, entry_fork live forked allocates]
  split_ifs
  · simp only [map_eq_some_iff]
    constructor
    · rintro ⟨page, _, ⟨old, found, rfl⟩, same⟩
      exact ⟨page, old, found, same⟩
    · rintro ⟨page, old, found, same⟩
      exact ⟨page, old.cow, ⟨old, found, rfl⟩, same⟩
  · rfl

open Classical in
theorem WellFormed.sharers_fork (h : s.WellFormed) (frame : ℕ) : t.sharers frame =
      if s.MapsFrame pid frame then insert s.nextPid (s.sharers frame) else s.sharers frame := by
  have wf := h.fork live forked
  ext p
  rw [wf.mem_sharers, mapsFrame_fork live forked allocates]
  split_ifs with own maps maps
  · simp only [maps, mem_insert, h.mem_sharers, true_iff]
    rcases own with new | rfl
    · exact .inl new
    · exact .inr maps
  · simp only [maps, h.mem_sharers, false_iff]
    rcases own with rfl | rfl
    · exact h.unborn
    · exact maps
  · simp only [mem_insert, h.mem_sharers, not_or.mp own, false_or]
  · rw [h.mem_sharers]

theorem view_fork_child : t.view s.nextPid = s.view pid := by
  have data : t.data = s.data := by
    obtain ⟨st, -, rfl⟩ := map_eq_some_iff.mp forked
    rfl
  have child (page : Page) : t.entry s.nextPid page = (s.entry pid page).map Pte.cow := by
    rw [entry_fork live forked allocates, if_pos (.inl rfl)]
  funext addr
  rw [view_eq, view_eq, child, data]
  simp [comp_def]

end Fork

/-! ## Write faults -/

variable {addr : ℕ}

theorem free_cowFault (free : (s.cowFault pid pml4 addr).frames.IsFree frame) :
    s.frames.IsFree frame := by
  unfold cowFault at free
  split_ifs at free
  · exact free
  cases handled : handleCowFault pml4 addr s.toPhys with
  | none =>
    rw [handled] at free
    exact free
  | some result =>
    obtain ⟨pml4', phys⟩ := result
    rw [handled] at free
    obtain ⟨old, _, _, ⟨_, rfl, _⟩ | ⟨_, newFrame, frames, called, rfl, _⟩⟩ :=
      handleCowFault_eq_some handled
    · exact free
    · exact ((BitmapFrameAllocator.isFree_allocFrame called frame).mp free).1

theorem cowFault_marked (live : s.spaces pid = some pml4) (user : addr < userEnd) {old : Pte}
    (found : s.entry pid (pageOf addr) = some old) (mark : old.flags.bit9)
    (allocates : 1 < s.refs old.frame → s.frames.allocFrame.1.isSome) :
    ∃ frame, (s.cowFault pid pml4 addr).entry pid (pageOf addr) =
      some ⟨frame, old.flags.uncow⟩ := by
  have lookup : pml4.lookup (pageOf addr) = some old := (entry_of_live live _).symm.trans found
  unfold cowFault
  rw [if_neg (not_le.mpr user)]
  by_cases low : s.refs old.frame ≤ 1
  · have handled : handleCowFault pml4 addr s.toPhys =
        some (pml4.modify (fun pte => { pte with flags := pte.flags.uncow }) (pageOf addr),
          s.toPhys) := by
      simp [handleCowFault, lookup, mark, low]
    refine ⟨old.frame, ?_⟩
    rw [handled]
    rw [entry_modify live, if_pos ⟨rfl, rfl⟩, found, map_some]
  · obtain ⟨newFrame, drawn⟩ := isSome_iff_exists.mp (allocates (not_le.mp low))
    have handled : handleCowFault pml4 addr s.toPhys =
        some (pml4.modify (fun pte => { frame := newFrame, flags := pte.flags.uncow })
          (pageOf addr), ⟨s.frames.allocFrame.2, refDec s.refs old.frame,
            update s.data newFrame (s.data old.frame)⟩) := by
      have pair : s.frames.allocFrame = (some newFrame, s.frames.allocFrame.2) := Prod.ext drawn rfl
      simp only [handleCowFault, lookup, mark, low, if_false, Bool.true_eq_false]
      rw [pair]
    refine ⟨newFrame, ?_⟩
    rw [handled]
    rw [entry_modify live, if_pos ⟨rfl, rfl⟩, found, map_some]

/-! ## Exact counts -/

/-- The frames that are left. -/
def left (s : Kernel) : ℕ := (setBits s.frames.bitmap).card

theorem left_lt (free : ∀ frame, t.frames.IsFree frame → s.frames.IsFree frame)
    (before : s.frames.IsFree frame) (after : ¬t.frames.IsFree frame) : t.left < s.left := by
  refine card_lt_card ⟨fun other mem => mem_setBits.mpr
    (free other (mem_setBits.mp mem)), fun subset => after ?_⟩
  exact mem_setBits.mp (subset (mem_setBits.mpr before))

theorem left_fork (forked : s.fork pid pml4 = some t) : t.left < s.left := by
  obtain ⟨st, called, rfl⟩ := map_eq_some_iff.mp forked
  rw [cowFork_eq, map_eq_some_iff] at called
  obtain ⟨⟨child, frames⟩, made, rfl⟩ := called
  obtain ⟨root, drawn, -⟩ := createUserPageTable_eq_some made
  have loop := foldl_sharePage_shares pml4.leaves ⟨pml4, child, frames, s.refs⟩
    (fun leaf mem => RadixTree.mem_leaves.mp mem) pml4.nodup_leaves
  have used := BitmapFrameAllocator.isFree_allocFrame drawn
  refine left_lt (fun frame free => ((used frame).mp (loop.free frame free)).1)
    (BitmapFrameAllocator.allocFrame_eq_some drawn).1 fun free => ?_
  exact ((used root).mp (loop.free root free)).2 rfl

/-- The count of a shared frame is the number of its sharers; other counts are at most one. Each
sharer but the first has cost a frame. -/
structure Counted (s : Kernel) (budget : ℕ) : Prop where
  isolated : s.Isolated
  exact : ∀ frame, 2 ≤ (s.sharers frame).card → s.refs frame = (s.sharers frame).card
  low : ∀ frame, (s.sharers frame).card ≤ 1 → s.refs frame ≤ 1
  paid : ∀ frame, (s.sharers frame).card + s.left ≤ budget + 1

namespace Counted

variable {budget : ℕ}

/-- A count is high only if the frame is shared. -/
theorem refs_eq (h : s.Counted budget) (high : 1 < s.refs frame) :
    s.refs frame = (s.sharers frame).card ∧ 2 ≤ (s.sharers frame).card := by
  by_cases shared : 2 ≤ (s.sharers frame).card
  · exact ⟨h.exact frame shared, shared⟩
  · have := h.low frame (by omega)
    omega

theorem room (h : s.Counted budget) (small : budget + 2 < 2 ^ 32) (frame : ℕ) :
    s.refs frame + 1 < 2 ^ 32 := by
  have paid := h.paid frame
  by_cases high : 1 < s.refs frame
  · have := (h.refs_eq high).1
    omega
  · omega

theorem fork (h : s.Counted budget) (small : budget + 2 < 2 ^ 32)
    (live : s.spaces pid = some pml4) (forked : s.fork pid pml4 = some t)
    (allocates : s.Allocates (.fork pid)) : t.Counted budget := by
  have isolated := h.isolated.fork live forked fun frame _ => h.room small frame
  have sharers := h.isolated.wf.sharers_fork live forked allocates
  have unborn (frame : ℕ) : s.nextPid ∉ s.sharers frame := by
    rw [h.isolated.wf.mem_sharers]
    exact h.isolated.wf.unborn
  have fewer : t.left < s.left := left_fork forked
  have owned {frame : ℕ} (maps : s.MapsFrame pid frame) : 0 < (s.sharers frame).card :=
    card_pos.mpr ⟨pid, h.isolated.wf.mem_sharers.mpr maps⟩
  refine ⟨isolated, fun frame shared => ?_, fun frame single => ?_, fun frame => ?_⟩
  · by_cases maps : s.MapsFrame pid frame
    · have positive := owned maps
      rw [(h.isolated.refs_fork live forked frame).1 maps, bump_eq (h.room small frame), sharers,
        if_pos maps, card_insert_of_notMem (unborn frame)]
      -- the first share counts the owner too
      by_cases before : 2 ≤ (s.sharers frame).card
      · rw [h.exact frame before, if_neg (by omega)]
      · have := h.low frame (by omega)
        split_ifs <;> omega
    · rw [sharers, if_neg maps] at shared ⊢
      rw [(h.isolated.refs_fork live forked frame).2 maps, h.exact frame shared]
  · by_cases maps : s.MapsFrame pid frame
    · have positive := owned maps
      rw [sharers, if_pos maps, card_insert_of_notMem (unborn frame)] at single
      omega
    · rw [sharers, if_neg maps] at single
      rw [(h.isolated.refs_fork live forked frame).2 maps]
      exact h.low frame single
  · have paid := h.paid frame
    rw [sharers]
    split_ifs
    · rw [card_insert_of_notMem (unborn frame)]
      omega
    · omega

section Entries

variable {page : Page} {old new : Pte} (found : s.entry pid page = some old) (entries : ∀ p page',
  t.entry p page' = if p = pid ∧ page' = page then some new else s.entry p page')

include found entries

/-- A page whose frame nobody shares becomes writable where it is. -/
theorem unshare (h : s.Counted budget) (isolated : t.Isolated) (same : new.frame = old.frame)
    (phys : t.toPhys = s.toPhys) : t.Counted budget := by
  have sharers := h.isolated.sharers_of_same found entries isolated.wf same
  have left : t.left = s.left := by rw [left, left, phys]
  refine ⟨isolated, ?_, ?_, ?_⟩
  · simpa only [sharers, phys] using h.exact
  · simpa only [sharers, phys] using h.low
  · simpa [sharers, left] using h.paid

/-- A shared page moves to a frame that was free. The old frame has one sharer less, and its count
goes down with it. -/
theorem copy (h : s.Counted budget) (isolated : t.Isolated) (high : 1 < s.refs old.frame)
    (fresh : s.frames.IsFree new.frame) (refs : t.refs = refDec s.refs old.frame)
    (fewer : t.left < s.left) : t.Counted budget := by
  have sharers := h.isolated.sharers_of_free found entries isolated.wf fresh
  obtain ⟨counted, shared⟩ := h.refs_eq high
  have mem : pid ∈ s.sharers old.frame :=
    h.isolated.wf.mem_sharers.mpr (mapsFrame_iff.mpr ⟨page, old, found, rfl⟩)
  have ne : old.frame ≠ new.frame := fun same =>
    h.isolated.wf.entry_used found (same ▸ fresh)
  have atOld : (t.sharers old.frame).card = (s.sharers old.frame).card - 1 := by
    rw [sharers, if_neg ne, if_pos rfl, card_erase_of_mem mem]
  have atNew : (t.sharers new.frame).card = 1 ∧ (s.sharers new.frame).card = 0 := by
    rw [sharers, if_pos rfl, card_eq_zero]
    refine ⟨rfl, eq_empty_of_forall_notMem fun p mem => ?_⟩
    exact h.isolated.wf.owns.mapped_used (h.isolated.wf.mem_sharers.mp mem) fresh
  have refsOld : t.refs old.frame = s.refs old.frame - 1 := by
    rw [refs, refDec, update_self]
  have refsOther {frame : ℕ} (notOld : frame ≠ old.frame) : t.refs frame = s.refs frame := by
    rw [refs, refDec, update_of_ne notOld]
  refine ⟨isolated, fun frame two => ?_, fun frame single => ?_, fun frame => ?_⟩
  all_goals
    by_cases isOld : frame = old.frame
    · have paid := h.paid old.frame
      subst isOld
      omega
    have paid := h.paid frame
    have low := h.low frame
    have exact := h.exact frame
    have unchanged := refsOther isOld
    by_cases isNew : frame = new.frame
    · subst isNew
      omega
    · have same : (t.sharers frame).card = (s.sharers frame).card := by
        rw [sharers, if_neg isNew, if_neg isOld]
      omega

end Entries

theorem cowFault (h : s.Counted budget) (live : s.spaces pid = some pml4) (addr : ℕ) :
    (s.cowFault pid pml4 addr).Counted budget := by
  have isolated := h.isolated.cowFault live addr
  rcases cowFault_cases live addr with unchanged | ⟨old, new, found, entries, how⟩
  · rw [unchanged]
    exact h
  rcases how with ⟨-, same, phys⟩ | ⟨high, fresh, refs, -⟩
  · exact h.unshare found entries isolated same phys
  refine h.copy found entries isolated high fresh refs
    (left_lt (fun _ => free_cowFault) fresh ?_)
  have entry : (s.cowFault pid pml4 addr).entry pid (pageOf addr) = some new := by
    rw [entries, if_pos ⟨rfl, rfl⟩]
  exact isolated.wf.entry_used entry

theorem withData (h : s.Counted budget) (data : ℕ → ℕ → UInt8) : { s with data }.Counted budget :=
  ⟨h.isolated.withData data, h.exact, h.low, h.paid⟩

/-- At the start no frame is shared and no count is recorded. -/
theorem of_private (start : s.Private) (refs : s.refs = fun _ => 0) : s.Counted s.left := by
  have single := start.card_sharers_le_one
  refine ⟨start.isolated, fun frame shared => ?_, fun frame _ => ?_, fun frame => ?_⟩
  · have := single frame
    omega
  · rw [refs]
    exact Nat.zero_le 1
  · have := single frame
    omega

end Counted

/-! ## Tables -/

theorem tablesOpen_of_live (live : s.spaces pid = some pml4) (addr : ℕ) :
    s.tablesOpen pid addr = pml4.isOpen (pageOf addr) := by
  rw [tablesOpen, live]
  rfl

/-- The tables of a child are not writable, and those of its parent stay as they are. -/
theorem tablesOpen_fork (live : s.spaces pid = some pml4) (forked : s.fork pid pml4 = some t)
    (p addr : ℕ) : t.tablesOpen p addr = if p = s.nextPid then false else s.tablesOpen p addr := by
  obtain ⟨st, called, rfl⟩ := map_eq_some_iff.mp forked
  have spec := cowFork_forked called
  by_cases new : p = s.nextPid
  · simp [tablesOpen, new, spec.child_open]
  by_cases same : p = pid
  · simp [tablesOpen, same, live, spec.parent_open, show pid ≠ s.nextPid from same ▸ new]
  · simp [tablesOpen, new, same]

theorem tablesOpen_cowFault (live : s.spaces pid = some pml4) (addr p a : ℕ) :
    (s.cowFault pid pml4 addr).tablesOpen p a = s.tablesOpen p a := by
  unfold cowFault
  split_ifs
  · rfl
  cases handled : handleCowFault pml4 addr s.toPhys with
  | none => rfl
  | some result =>
    obtain ⟨pml4', phys⟩ := result
    have same : pml4'.isOpen (pageOf a) = pml4.isOpen (pageOf a) := by
      obtain ⟨-, -, -, ⟨-, -, rfl⟩ | ⟨-, -, -, -, -, rfl⟩⟩ := handleCowFault_eq_some handled
      · exact RadixTree.isOpen_modify _ _
      · exact RadixTree.isOpen_modify _ _
    rw [tablesOpen, spaces_withSpace]
    split_ifs with own
    · rw [own, tablesOpen_of_live live, ← same]
      rfl
    · rfl

/-! ## Accesses and the ideal memory -/

theorem isSome_writablePte (live : s.spaces pid = some pml4) :
    (writablePte pml4 addr).isSome ↔ (addr < userEnd ∧ ∃ pte, s.entry pid (pageOf addr) = some pte ∧
      pte.flags.writable ∧ pte.flags.userAccessible) ∧ s.tablesOpen pid addr := by
  rw [writablePte, entry_of_live live, tablesOpen_of_live live]
  split_ifs with kernelHalf
  · exact iff_of_false nofun fun user => absurd kernelHalf (not_le.mpr user.1.1)
  · simp only [not_le.mp kernelHalf, true_and, isSome_iff_exists, filter_eq_some_iff,
      Bool.and_eq_true, ← and_assoc, exists_and_right]

/-- A store after the fault, if there was one, succeeds exactly where the program may write and the
tables let it. -/
theorem isSome_writablePte_iff (live : s.spaces pid = some pml4)
    (allocates : s.Allocates (.write pid addr byte)) {s' : Kernel} {pml4' : Space}
    (faulted : s' = if s.marked pid addr then s.cowFault pid pml4 addr else s)
    (live' : s'.spaces pid = some pml4') :
    (writablePte pml4' addr).isSome ↔ s.Permits pid addr ∧ s.tablesOpen pid addr := by
  have tables : s'.tablesOpen pid addr = s.tablesOpen pid addr := by
    rw [faulted]
    split_ifs
    · exact tablesOpen_cowFault live addr pid addr
    · rfl
  rw [isSome_writablePte live', tables]
  refine and_congr_left fun _ => and_congr_right fun user => ?_
  cases found : s.entry pid (pageOf addr) with
  | none =>
    have unmarked : s.marked pid addr = false := by simp [marked, found]
    rw [unmarked] at faulted
    simp [faulted, found]
  | some old =>
    cases mark : old.flags.bit9 with
    | false =>
      have unmarked : s.marked pid addr = false := by simp [marked, found, mark]
      rw [unmarked] at faulted
      simp [faulted, found, mark, and_comm]
    | true =>
      have isMarked : s.marked pid addr := by simp [marked, found, mark]
      rw [isMarked] at faulted
      obtain ⟨frame, entry⟩ := cowFault_marked live user found mark (allocates old found mark)
      rw [faulted, if_pos rfl, entry]
      simp [PageTableFlags.uncow, mark]

/-- A write is a store, after a fault if the page is marked. -/
theorem access_write (done : s.access (.write pid addr byte) = some t) :
    ∃ pml4 s' pml4', s.spaces pid = some pml4 ∧
      (s' = if s.marked pid addr then s.cowFault pid pml4 addr else s) ∧
      s'.spaces pid = some pml4' ∧ t = s'.store pml4' addr byte := by
  rw [access] at done
  split_ifs at done with isMarked
  · obtain ⟨s', faulted, stored⟩ := bind_eq_some_iff.mp done
    obtain ⟨pml4, live, handled⟩ := bind_eq_some_iff.mp faulted
    cases handled
    obtain ⟨pml4', live', written⟩ := bind_eq_some_iff.mp stored
    cases written
    exact ⟨pml4, _, pml4', live, by simp [isMarked], live', rfl⟩
  · obtain ⟨pml4, live, written⟩ := bind_eq_some_iff.mp done
    cases written
    exact ⟨pml4, s, pml4, live, by simp [isMarked], live, rfl⟩

/-- Counts are exact, and processes read the ideal memory. -/
structure Faithful (budget : ℕ) (state : Kernel × Ideal) : Prop where
  counted : state.1.Counted budget
  reads : ∀ {pid}, (state.1.spaces pid).isSome → state.1.view pid = state.2 pid

/-- One access, of the kernel and of the ideal memory. -/
def AccessStep (state : Kernel × Ideal) (a : Access) (state' : Kernel × Ideal) : Prop :=
  state.1.access a = some state'.1 ∧ state'.2 = state.1.ideal state.2 a

variable {budget : ℕ}

theorem Counted.store (h : s.Counted budget) (addr : ℕ) (byte : UInt8) :
    (s.store pml4 addr byte).Counted budget := by
  unfold Kernel.store
  split
  · exact h
  · exact h.withData _

theorem Counted.access (h : s.Counted budget) (small : budget + 2 < 2 ^ 32) {a : Access}
    (allocates : s.Allocates a) (done : s.access a = some t) : t.Counted budget := by
  cases a with
  | fork pid =>
    obtain ⟨pml4, live, forked⟩ := bind_eq_some_iff.mp done
    exact h.fork small live forked allocates
  | write pid addr byte =>
    obtain ⟨pml4, s', pml4', live, faulted, live', rfl⟩ := access_write done
    refine Counted.store ?_ addr byte
    rw [faulted]
    split_ifs
    · exact h.cowFault live addr
    · exact h

/-- From process `first` on, none has writable tables. -/
def ClosedFrom (first : ℕ) (s : Kernel) : Prop :=
  first ≤ s.nextPid ∧ ∀ pid ≥ first, ∀ addr, s.tablesOpen pid addr = false

/-- No access opens a table. -/
theorem ClosedFrom.access {first : ℕ} (h : s.ClosedFrom first) {a : Access}
    (done : s.access a = some t) : t.ClosedFrom first := by
  cases a with
  | fork pid =>
    obtain ⟨pml4, live, forked⟩ := bind_eq_some_iff.mp done
    refine ⟨?_, fun p new addr => ?_⟩
    · obtain ⟨st, -, rfl⟩ := map_eq_some_iff.mp forked
      exact Nat.le_succ_of_le h.1
    · rw [tablesOpen_fork live forked]
      split_ifs
      · rfl
      · exact h.2 p new addr
  | write pid addr byte =>
    obtain ⟨pml4, s', pml4', live, faulted, live', rfl⟩ := access_write done
    have before : s'.ClosedFrom first := by
      rw [faulted]
      split_ifs
      · refine ⟨?_, fun p new a => (tablesOpen_cowFault live addr p a).trans (h.2 p new a)⟩
        unfold Kernel.cowFault
        split_ifs
        · exact h.1
        · split <;> exact h.1
      · exact h
    unfold Kernel.store
    split <;> exact before

namespace Faithful

variable {memory : Ideal}

section

variable (h : Faithful budget (s, memory))
include h

theorem fork (small : budget + 2 < 2 ^ 32)
    (allocates : s.Allocates (.fork pid)) (done : s.access (.fork pid) = some t) :
    Faithful budget (t, s.ideal memory (.fork pid)) := by
  obtain ⟨pml4, live, forked⟩ := bind_eq_some_iff.mp done
  change s.spaces pid = some pml4 at live
  refine ⟨h.counted.fork small live forked allocates, fun {p} alive => ?_⟩
  change t.view p = update memory s.nextPid (memory pid) p
  by_cases new : p = s.nextPid
  · rw [new, update_self, view_fork_child live forked allocates]
    exact h.reads (by simp [live])
  rw [update_of_ne new]
  have before : (s.spaces p).isSome := by
    obtain ⟨st, -, rfl⟩ := map_eq_some_iff.mp forked
    obtain ⟨space, alive⟩ := isSome_iff_exists.mp alive
    rcases spaces_fork_cases alive with ⟨same, -⟩ | ⟨rfl, -⟩ | ⟨-, old⟩
    · exact absurd same new
    · simp [live]
    · simp [old]
  rw [h.counted.isolated.wf.view_fork live forked before]
  exact h.reads before

/-- A fault changes no view and keeps the counts exact. -/
theorem cowFault (live : s.spaces pid = some pml4) (addr : ℕ) :
    Faithful budget (s.cowFault pid pml4 addr, memory) := by
  refine ⟨h.counted.cowFault live addr, fun {p} alive => ?_⟩
  have before : (s.spaces p).isSome := (isSome_spaces_cowFault live addr).symm.trans alive
  rw [h.counted.isolated.wf.view_cowFault live addr]
  exact h.reads before

theorem store (live : s.spaces pid = some pml4) (addr : ℕ)
    (byte : UInt8) : Faithful budget (s.store pml4 addr byte, if (writablePte pml4 addr).isSome then
        update memory pid (update (memory pid) addr (some byte)) else memory) := by
  cases allowed : writablePte pml4 addr with
  | none =>
    have same : s.store pml4 addr byte = s := by simp [Kernel.store, allowed]
    rw [same]
    exact h
  | some pte =>
    have stored : s.Step (.store pid addr byte) (s.store pml4 addr byte) := by
      simp [Step, step, Event.pid, live, apply]
    have separate : s.Separate (.store pid addr byte) := trivial
    have isolates := h.counted.isolated.step separate stored
    have spaces : (s.store pml4 addr byte).spaces = s.spaces := by simp [Kernel.store, allowed]
    refine ⟨h.counted.store addr byte, fun {p} alive => ?_⟩
    change (s.store pml4 addr byte).view p =
      update memory pid (update (memory pid) addr (some byte)) p
    rw [spaces] at alive
    rw [isolates.view_eq alive, h.reads alive]
    by_cases same : p = pid
    · have own : s.writes (.store pid addr byte) pid = [(addr, byte)] := by
        simp [writes, live, allowed]
      rw [same, own, update_self]
      rfl
    · rw [writes_of_ne same, update_of_ne same]
      rfl

/-- After a write, processes read the ideal memory exactly if it was effective. -/
theorem write_iff (allocates : s.Allocates (.write pid addr byte))
    (done : s.access (.write pid addr byte) = some t) :
    (∀ {p}, (t.spaces p).isSome → t.view p = s.ideal memory (.write pid addr byte) p) ↔
      s.Effective (.write pid addr byte) := by
  classical
  obtain ⟨pml4, s', pml4', live, faulted, live', rfl⟩ := access_write done
  have faithful : Faithful budget (s', memory) := by
    rw [faulted]
    split_ifs
    · exact h.cowFault live addr
    · exact h
  have result := faithful.store live' addr byte
  simp only [isSome_writablePte_iff live allocates faulted live'] at result
  by_cases opened : s.tablesOpen pid addr
  · simp only [opened, and_true] at result
    exact iff_of_true result.reads fun _ => .inl opened
  -- the store is refused, and the ideal memory moves on alone
  rw [if_neg fun both => opened both.2] at result
  have alive : ((s'.store pml4' addr byte).spaces pid).isSome := by
    rw [Kernel.store]
    split <;> simp [live']
  have own : s.view pid = memory pid := h.reads (by simp [live])
  constructor
  · intro reads permits
    have there : memory pid = _ := (result.reads alive).symm.trans (reads alive)
    rw [ideal, if_pos permits, update_self] at there
    refine .inr ?_
    rw [own]
    exact (congrFun there addr).trans (update_self ..)
  · intro effective p living
    have kept : (s'.store pml4' addr byte).view p = memory p := result.reads living
    rw [kept, ideal]
    split_ifs with permits
    · have there := (effective permits).resolve_left opened
      rw [own] at there
      rw [← there, update_eq_self, update_eq_self]
    · rfl

end

end Faithful

/-- Counted as pages, the sharers of a frame are the same. -/
theorem Isolated.ncard_mappings (h : s.Isolated) :
    (s.mappings frame).ncard = (s.sharers frame).card := by
  have image : Prod.fst '' s.mappings frame = ↑(s.sharers frame) := by
    ext p
    rw [mem_coe, h.wf.mem_sharers, mapsFrame_iff]
    simp only [Set.mem_image, Prod.exists, exists_and_right, exists_eq_right]
    rfl
  have injective : Set.InjOn Prod.fst (s.mappings frame) := by
    rintro ⟨p, page⟩ ⟨pte, found, same⟩ ⟨q, page'⟩ ⟨pte', found', same'⟩ equal
    cases (equal : p = q)
    have pages : page = page' := h.once found found' (same.trans same'.symm)
    rw [pages]
  rw [← injective.ncard_image, image, Set.ncard_coe_finset]

theorem Counted.cowSafe (h : s.Counted budget) : s.CowSafe := by
  refine ⟨fun frame shared => ?_, fun {pid page pte} found writable => ?_⟩
  · rw [h.isolated.ncard_mappings] at shared ⊢
    exact h.exact frame shared
  ext ⟨q, page'⟩
  rw [Set.mem_singleton_iff]
  constructor
  · rintro ⟨pte', found', same⟩
    rw [h.isolated.sole found writable found' same.symm, h.isolated.once found found' same.symm]
  · rintro ⟨rfl, rfl⟩
    exact ⟨pte, found, rfl⟩

end Kernel

/-! ## Runs -/

/-- The size of the kernel heap, in bytes. -/
def heapSize : ℕ := 32 * 1024 * 1024

/-- From a state in which every user frame is mapped once and no count is recorded, in every run
of forks and writes in which no allocation fails, counts are exact and a writable page is alone on
its frame, and no process made by a fork has writable tables. Each process reads, all along the run,
what it has written since its fork, or else what its parent had, exactly if no write is lost. -/
theorem cow_run {s t : Kernel} {memory : Ideal} {accesses : List Access} (start : s.Private)
    (unrecorded : s.refs = fun _ => 0) (heap : s.frames.bitmap.length * 8 ≤ heapSize) :
    (Run (Guarded (fun state a => state.1.Allocates a) Kernel.AccessStep) (s, s.view)
        accesses (t, memory) →
      t.CowSafe ∧ t.ClosedFrom s.nextPid) ∧
    (Run (fun state a state' => Guarded (fun state a => state.1.Allocates a) Kernel.AccessStep
          state a state' ∧ state'.1.CowCorrect state'.2) (s, s.view) accesses (t, memory) ↔
      Run (Guarded (fun state a => state.1.Effective a)
          (Guarded (fun state a => state.1.Allocates a) Kernel.AccessStep))
        (s, s.view) accesses (t, memory)) := by
  have small : s.left + 2 < 2 ^ 32 := by
    have bound : s.left ≤ 64 * s.frames.bitmap.length := by
      refine (card_filter_le _ _).trans_eq ?_
      rw [card_range]
    have size : heapSize = 33554432 := rfl
    omega
  have counted := Kernel.Counted.of_private start unrecorded
  constructor
  · intro run
    let Inv (state : Kernel × Ideal) : Prop :=
      state.1.Counted s.left ∧ state.1.ClosedFrom s.nextPid
    have unborn : s.ClosedFrom s.nextPid := by
      refine ⟨le_rfl, fun pid new addr => ?_⟩
      cases alive : s.spaces pid with
      | none => simp [Kernel.tablesOpen, alive]
      | some pml4 => exact absurd (start.wf.live_lt alive) (not_lt.mpr new)
    have last : Inv (t, memory) := by
      refine run.invariant (fun {state a state'} step inv => ?_) ⟨counted, unborn⟩
      exact ⟨inv.1.access small step.1 step.2.1, inv.2.access step.2.1⟩
    exact ⟨last.1.cowSafe, last.2⟩
  · let Inv (state : Kernel × Ideal) : Prop := Kernel.Faithful s.left state
    refine @Run.guarded_iff _ _ _ _ _ _ Inv _ _ (fun {state a state'} inv step => ?_)
      ⟨counted, fun _ => rfl⟩
    obtain ⟨s₁, memory₁⟩ := state
    obtain ⟨s₂, memory₂⟩ := state'
    obtain ⟨allocates, done, ideal⟩ := step
    cases (ideal : memory₂ = _)
    cases a with
    | fork pid =>
      have after := inv.fork small allocates done
      exact ⟨iff_of_true ⟨after.counted.cowSafe, after.reads⟩ trivial, fun _ => after⟩
    | write pid addr byte =>
      have iff := inv.write_iff allocates done
      have after : s₂.Counted s.left := inv.counted.access small allocates done
      refine ⟨⟨fun correct => iff.mp correct.reads, fun effective => ?_⟩, fun effective => ?_⟩
      · exact ⟨after.cowSafe, iff.mpr effective⟩
      · exact ⟨after, iff.mpr effective⟩

instance : (shared : List (Page × Pte)) → (st : ForkState) → Decidable (SharesAll shared st)
  | [], _ => isTrue trivial
  | leaf :: rest, st =>
    have := instDecidableSharesAll rest (sharePage leaf.1 leaf.2 st)
    inferInstanceAs (Decidable (_ ∧ _))

/-- A process with one page forks, and then one of the two writes to the page. -/
theorem pageKernel_accesses {pid : ℕ} {seen : Option (Bool × Bool) × Bool × Option UInt8 ×
      Option UInt8}
    (runs : (pageKernel.access (.fork 1)).bind (fun t =>
      (t.access (.write pid 0x1000 7)).map fun u => (t.frames.allocFrame.1.isSome,
        (t.entry pid (pageOf 0x1000)).map fun pte => (pte.flags.userAccessible, pte.flags.bit9),
        t.tablesOpen pid 0x1000, u.view 1 0x1000, u.view 2 0x1000)) = some (true, seen)) :
    ∃ t u, (pageKernel.Allocates (.fork 1) ∧ pageKernel.access (.fork 1) = some t) ∧
      (t.Allocates (.write pid 0x1000 7) ∧ t.access (.write pid 0x1000 7) = some u) ∧
      seen = ((t.entry pid (pageOf 0x1000)).map fun pte =>
        (pte.flags.userAccessible, pte.flags.bit9), t.tablesOpen pid 0x1000, u.view 1 0x1000,
        u.view 2 0x1000) := by
  have shares : ((pageKernel.spaces 1).bind fun pml4 =>
      (createUserPageTable pageKernel.frames).map fun made =>
        decide (SharesAll pml4.leaves ⟨pml4, made.1, made.2, pageKernel.refs⟩)) = some true := by
    decide +kernel
  -- from here on the state need not be computed
  generalize pageKernel = s at *
  obtain ⟨t, forked, runs⟩ := bind_eq_some_iff.mp runs
  obtain ⟨u, written, facts⟩ := map_eq_some_iff.mp runs
  obtain ⟨available, seen⟩ := Prod.mk.inj facts
  refine ⟨t, u, ⟨?_, forked⟩, ⟨fun _ _ _ _ => available, written⟩, seen.symm⟩
  intro pml4 made frames live called
  rw [live, called] at shares
  simpa using shares

theorem pageKernel_heap : pageKernel.frames.bitmap.length * 8 ≤ heapSize := by decide +kernel

/-- The parent writes to its copy. -/
theorem cow_run_parent_writes : ∃ t memory,
    Run (Guarded (fun state a => state.1.Allocates a) Kernel.AccessStep)
      (pageKernel, pageKernel.view) [.fork 1, .write 1 0x1000 7] (t, memory) ∧
      t.view 1 0x1000 = some 7 ∧ t.view 2 0x1000 = some 0 ∧
      Run (fun state a state' => Guarded (fun state a => state.1.Allocates a) Kernel.AccessStep
          state a state' ∧ state'.1.CowCorrect state'.2) (pageKernel, pageKernel.view)
        [.fork 1, .write 1 0x1000 7] (t, memory) := by
  obtain ⟨t, u, fork, write, seen⟩ := @pageKernel_accesses 1
    (some (true, true), true, some 7, some 0) (by decide +kernel)
  have start := pageKernel_private
  have heap := pageKernel_heap
  generalize pageKernel = s at *
  simp only [Prod.mk.injEq] at seen
  obtain ⟨-, opened, parent, child⟩ := seen
  have correct := (@cow_run s u (t.ideal (s.ideal s.view (.fork 1)) (.write 1 0x1000 7))
    [.fork 1, .write 1 0x1000 7] start.1 start.2 heap).2
  refine ⟨u, _, .cons (t := (t, _)) ⟨fork.1, fork.2, rfl⟩ (.cons ⟨write.1, write.2, rfl⟩ (.nil _)),
    parent.symm, child.symm, correct.mpr ?_⟩
  exact .cons (t := (t, _)) ⟨trivial, fork.1, fork.2, rfl⟩
    (.cons ⟨fun _ => .inl opened.symm, write.1, write.2, rfl⟩ (.nil _))

/-- The child writes to the page as well, and still reads the old byte. -/
theorem child_write_lost : ¬∀ (s t : Kernel) (memory : Ideal) (accesses : List Access), s.Private →
    (s.refs = fun _ => 0) → s.frames.bitmap.length * 8 ≤ heapSize →
    Run (Guarded (fun state a => state.1.Allocates a) Kernel.AccessStep) (s, s.view) accesses
      (t, memory) → t.CowCorrect memory := by
  intro correct
  obtain ⟨t, u, fork, write, seen⟩ := @pageKernel_accesses 2
    (some (true, true), false, some 0, some 0) (by decide +kernel)
  have start := pageKernel_private
  have heap := pageKernel_heap
  generalize pageKernel = s at *
  simp only [Prod.mk.injEq] at seen
  obtain ⟨flags, -, -, child⟩ := seen
  obtain ⟨pte, found, flags⟩ := map_eq_some_iff.mp flags.symm
  obtain ⟨user, mark⟩ := Prod.mk.inj flags
  have permits : t.Permits 2 0x1000 := ⟨by decide, pte, found, user, .inr mark⟩
  obtain ⟨pml4, alive, -⟩ := bind_eq_some_iff.mp child.symm
  have reads := (correct s u (t.ideal (s.ideal s.view (.fork 1)) (.write 2 0x1000 7)) _ start.1
    start.2 heap (.cons (t := (t, _)) ⟨fork.1, fork.2, rfl⟩
      (.cons ⟨write.1, write.2, rfl⟩ (.nil _)))).reads (isSome_iff_exists.mpr ⟨_, alive⟩)
  have written := congrFun reads 0x1000
  simp only [Kernel.ideal, if_pos permits, update_self, ← child] at written
  cases written

end SmartOs.Memory
