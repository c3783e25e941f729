/-
# Forked processes do not see each other's writes

After a fork both processes map the same frames. What keeps them apart is that a page
is writable only while no other process maps its frame, and that the reference count of a
shared frame is at least the number of processes sharing it, so that a write fault copies
the frame while it is shared. `Isolated` is this invariant; forks, write faults and
stores keep it, and under it a write to one space changes no other view.

`copy_to_user` writes through the translation of the address without asking whether the
page is writable. On a shared page the byte reaches every process that shares it.
-/

import SmartOs.Memory.FrameSafety
import SmartOs.Memory.UserCopy

namespace SmartOs.Memory

open SmartOs.CS Function Option Finset RadixTree

namespace Kernel

/-! ## What processes see -/

def entry (s : Kernel) (pid : ℕ) (page : Page) : Option Pte :=
  (s.spaces pid).bind (·.lookup page)

def view (s : Kernel) (pid addr : ℕ) : Option UInt8 :=
  (s.spaces pid).bind fun pml4 => (translateUserAddr pml4 addr).map fun place =>
    s.data place.1 place.2

/-- The writes that an event makes for a process, with their addresses. -/
def writes (s : Kernel) (e : Event) (pid : ℕ) : List (ℕ × UInt8) :=
  match s.spaces pid, e with
  | some pml4, .store p addr byte =>
    if p = pid ∧ (writablePte pml4 addr).isSome then [(addr, byte)] else []
  | some pml4, .copyToUser p dstVaddr src => if p = pid then copied pml4 dstVaddr src else []
  | _, _ => []

/-- The writes made for a process in the run along some events. -/
def writesAlong (s : Kernel) : List Event → ℕ → List (ℕ × UInt8)
  | [], _ => []
  | e :: events, pid =>
    s.writes e pid ++ match s.step e with
      | none => []
      | some t => t.writesAlong events pid

end Kernel

/-- A view after some writes. -/
def replay (writes : List (ℕ × UInt8)) (view : ℕ → Option UInt8) : ℕ → Option UInt8 :=
  writes.foldl (fun view write => update view write.1 (some write.2)) view

variable {e : Event}

namespace Kernel

variable {s t : Kernel} {pid : ℕ} {pml4 : Space}

theorem entry_of_live (live : s.spaces pid = some pml4) (page : Page) :
    s.entry pid page = pml4.lookup page := by
  simp [entry, live]

variable {frame p : ℕ} {page : Page} {pte : Pte}

theorem mapsFrame_iff :
    s.MapsFrame pid frame ↔ ∃ page pte, s.entry pid page = some pte ∧ pte.frame = frame := by
  simp only [entry, bind_eq_some_iff]
  constructor
  · rintro ⟨space, live, page, pte, found, same⟩
    exact ⟨page, pte, ⟨space, live, found⟩, same⟩
  · rintro ⟨page, pte, ⟨space, live, found⟩, same⟩
    exact ⟨space, live, page, pte, found, same⟩

theorem WellFormed.entry_used (h : s.WellFormed) (found : s.entry pid page = some pte) :
    ¬s.frames.IsFree pte.frame :=
  h.owns.mapped_used (mapsFrame_iff.mpr ⟨page, pte, found, rfl⟩)

/-- A view depends on the frames behind the pages and on their bytes only. -/
theorem view_eq (s : Kernel) (pid addr : ℕ) : s.view pid addr = if addr ≥ userEnd then none
      else ((s.entry pid (pageOf addr)).map Pte.frame).map fun frame =>
        s.data frame (pageOffset addr) := by
  unfold view entry translateUserAddr
  cases s.spaces pid with
  | none => simp
  | some pml4 => split_ifs <;> simp [comp_def]

/-! ## The invariant -/

open Classical in
noncomputable def sharers (s : Kernel) (frame : ℕ) : Finset ℕ :=
  (range s.nextPid).filter fun pid => s.MapsFrame pid frame

/-- Processes can be told apart: a frame stands for the same page wherever it is mapped,
a writable page is shared with nobody, and the count of a shared frame covers its
sharers. -/
structure Isolated (s : Kernel) : Prop where
  wf : s.WellFormed
  once : ∀ {p q page page' pte pte'}, s.entry p page = some pte → s.entry q page' = some pte' →
    pte.frame = pte'.frame → page = page'
  sole : ∀ {p q page page' pte pte'}, s.entry p page = some pte → pte.flags.writable →
    s.entry q page' = some pte' → pte.frame = pte'.frame → p = q
  counted : ∀ frame, 2 ≤ (s.sharers frame).card → (s.sharers frame).card ≤ s.refs frame

/-- Every user frame is mapped once, by one process. -/
structure Private (s : Kernel) : Prop where
  wf : s.WellFormed
  exclusive : ∀ {p q page page' pte pte'}, s.entry p page = some pte →
    s.entry q page' = some pte' → pte.frame = pte'.frame → p = q ∧ page = page'

theorem WellFormed.mem_sharers (h : s.WellFormed) :
    pid ∈ s.sharers frame ↔ s.MapsFrame pid frame := by
  simp only [sharers, mem_filter, mem_range, and_iff_right_iff_imp]
  rintro ⟨space, live, -⟩
  exact h.live_lt live

theorem Private.card_sharers_le_one (h : s.Private) (frame : ℕ) : (s.sharers frame).card ≤ 1 := by
  refine card_le_one.mpr fun p memberP q memberQ => ?_
  obtain ⟨_, _, foundP, rfl⟩ := mapsFrame_iff.mp (h.wf.mem_sharers.mp memberP)
  obtain ⟨_, _, foundQ, same⟩ := mapsFrame_iff.mp (h.wf.mem_sharers.mp memberQ)
  exact (h.exclusive foundP foundQ same.symm).1

theorem Private.isolated (h : s.Private) : s.Isolated := by
  refine ⟨h.wf, fun found found' same => (h.exclusive found found' same).2,
    fun found _ found' same => (h.exclusive found found' same).1, fun frame shared => ?_⟩
  have single := h.card_sharers_le_one frame
  omega

/-- The count of a shared frame is at least `2`. -/
theorem Isolated.alone (h : s.Isolated) {q : ℕ} (low : s.refs frame ≤ 1)
    (mapsP : s.MapsFrame p frame) (mapsQ : s.MapsFrame q frame) : p = q := by
  by_contra distinct
  have two : ({p, q} : Finset ℕ).card ≤ (s.sharers frame).card := by
    refine card_le_card fun x mem => h.wf.mem_sharers.mpr ?_
    rcases mem_insert.mp mem with rfl | mem
    · exact mapsP
    · rwa [mem_singleton.mp mem]
  rw [card_pair distinct] at two
  have := h.counted frame two
  omega

/-! ## Fork -/

section Fork

variable (live : s.spaces pid = some pml4) (forked : s.fork pid pml4 = some t)

include live forked

/-- Where an entry comes from after a fork: a page of the parent or the child is a
read-only version of the parent's, and the others are as before. -/
theorem entry_of_fork (found : t.entry p page = some pte) :
    ∃ q old, s.entry q page = some old ∧ pte.frame = old.frame ∧
      ((q = pid ∧ (p = pid ∨ p = s.nextPid) ∧ pte.flags.writable = false) ∨
        (q = p ∧ q ≠ pid ∧ pte = old)) := by
  obtain ⟨st, called, rfl⟩ := map_eq_some_iff.mp forked
  have spec := cowFork_forked called
  have readOnly (old : Pte) : old.cow.flags.writable = false := by
    cases writable : old.flags.writable <;> simp [Pte.cow, PageTableFlags.cow, writable]
  obtain ⟨space, alive, found⟩ := bind_eq_some_iff.mp found
  rcases spaces_fork_cases alive with ⟨rfl, rfl⟩ | ⟨rfl, rfl⟩ | ⟨other, before⟩
  · obtain ⟨old, before, rfl⟩ := spec.child_lookup page pte found
    exact ⟨pid, old, (entry_of_live live page).trans before, rfl,
      .inl ⟨rfl, .inr rfl, readOnly old⟩⟩
  · rw [spec.parent_lookup, map_eq_some_iff] at found
    obtain ⟨old, before, rfl⟩ := found
    exact ⟨p, old, (entry_of_live live page).trans before, rfl, .inl ⟨rfl, .inl rfl, readOnly old⟩⟩
  · exact ⟨p, pte, (entry_of_live before page).trans found, rfl, .inr ⟨rfl, other, rfl⟩⟩

theorem Isolated.refs_fork (h : s.Isolated) (frame : ℕ) :
    (s.MapsFrame pid frame → t.refs frame = bump (s.refs frame)) ∧
      (¬s.MapsFrame pid frame → t.refs frame = s.refs frame) := by
  obtain ⟨st, called, rfl⟩ := map_eq_some_iff.mp forked
  rw [cowFork_eq, map_eq_some_iff] at called
  obtain ⟨⟨child, frames⟩, -, rfl⟩ := called
  have distinct : (pml4.leaves.map fun leaf => leaf.2.frame).Nodup := by
    refine List.Nodup.map_on (fun x memberX y memberY same => ?_) (pml4.nodup_leaves.of_map _)
    have foundX := mem_leaves.mp memberX
    have foundY := mem_leaves.mp memberY
    have page : x.1 = y.1 := h.once ((entry_of_live live _).trans foundX)
      ((entry_of_live live _).trans foundY) same
    rw [page, foundY] at foundX
    exact Prod.ext page (some.inj foundX.symm)
  have listed : frame ∈ pml4.leaves.map (fun leaf => leaf.2.frame) ↔ s.MapsFrame pid frame := by
    simp only [mapsFrame_iff, entry_of_live live, List.mem_map, Prod.exists, mem_leaves]
  have loop := foldl_sharePage_refs pml4.leaves ⟨pml4, child, frames, s.refs⟩ distinct frame
  exact ⟨fun maps => loop.trans (if_pos (listed.mpr maps)), fun unmapped =>
    loop.trans (if_neg fun mem => unmapped (listed.mp mem))⟩

/-- Short of an overflow of the counts, a fork keeps the processes apart. -/
theorem Isolated.fork (h : s.Isolated)
    (room : ∀ frame, s.MapsFrame pid frame → s.refs frame + 1 < 2 ^ 32) : t.Isolated := by
  have wf := h.wf.fork live forked
  -- a process that maps a frame did so before, or is the child of one that did
  have sharer {p frame : ℕ} (maps : t.MapsFrame p frame) :
      s.MapsFrame p frame ∨ (p = s.nextPid ∧ s.MapsFrame pid frame) := by
    obtain ⟨page, pte, found, rfl⟩ := mapsFrame_iff.mp maps
    obtain ⟨q, old, before, same, how⟩ := entry_of_fork live forked found
    have mapped := mapsFrame_iff.mpr ⟨page, old, before, same.symm⟩
    rcases how with ⟨rfl, rfl | rfl, -⟩ | ⟨rfl, -, -⟩
    · exact .inl mapped
    · exact .inr ⟨rfl, mapped⟩
    · exact .inl mapped
  refine ⟨wf, fun found found' same => ?_, fun found writable found' same => ?_,
    fun frame shared => ?_⟩
  · obtain ⟨_, _, before, frame, -⟩ := entry_of_fork live forked found
    obtain ⟨_, _, before', frame', -⟩ := entry_of_fork live forked found'
    exact h.once before before' (frame.symm.trans (same.trans frame'))
  · obtain ⟨_, _, before, -, ⟨-, -, readOnly⟩ | ⟨rfl, other, rfl⟩⟩ :=
      entry_of_fork live forked found
    · rw [readOnly] at writable
      cases writable
    obtain ⟨_, _, before', frame', ⟨rfl, -, -⟩ | ⟨rfl, -, -⟩⟩ := entry_of_fork live forked found'
    · exact absurd (h.sole before writable before' (same.trans frame')) other
    · exact h.sole before writable before' (same.trans frame')
  · by_cases maps : s.MapsFrame pid frame
    · -- the child joins the sharers, and the count goes up with it
      have grown : (t.sharers frame).card ≤ (s.sharers frame).card + 1 := by
        refine (card_le_card fun p mem => ?_).trans
          (card_insert_le s.nextPid (s.sharers frame))
        rcases sharer (wf.mem_sharers.mp mem) with before | ⟨rfl, -⟩
        · exact mem_insert_of_mem (h.wf.mem_sharers.mpr before)
        · exact mem_insert_self _ _
      have counted := h.counted frame
      rw [(h.refs_fork live forked frame).1 maps, bump_eq (room frame maps)]
      split_ifs <;> omega
    · have same : (t.sharers frame).card ≤ (s.sharers frame).card := by
        refine card_le_card fun p mem => h.wf.mem_sharers.mpr ?_
        rcases sharer (wf.mem_sharers.mp mem) with before | ⟨-, impossible⟩
        · exact before
        · exact absurd impossible maps
      rw [(h.refs_fork live forked frame).2 maps]
      exact same.trans (h.counted frame (shared.trans same))

theorem WellFormed.view_fork (h : s.WellFormed) (alive : (s.spaces p).isSome) :
    t.view p = s.view p := by
  obtain ⟨st, called, rfl⟩ := map_eq_some_iff.mp forked
  have spec := cowFork_forked called
  obtain ⟨space, before⟩ := isSome_iff_exists.mp alive
  have old : p ≠ s.nextPid := (h.live_lt before).ne
  funext addr
  rw [view_eq, view_eq]
  by_cases same : p = pid
  · -- the flags of the parent's pages change, their frames do not
    subst same
    simp [entry, update_of_ne old, live, spec.parent_lookup, comp_def]
  · simp [entry, update_of_ne old, update_of_ne same]

end Fork

/-! ## Write faults -/

theorem entry_modify (live : s.spaces pid = some pml4) (f : Pte → Pte) (page : Page) (phys : Phys)
    (p : ℕ) (page' : Page) : (s.withSpace pid (some (pml4.modify f page)) phys).entry p page' =
      if p = pid ∧ page' = page then (s.entry pid page).map f else s.entry p page' := by
  rw [entry, spaces_withSpace]
  by_cases same : p = pid
  · subst same
    simp only [if_true, bind_some, lookup_modify, true_and, entry_of_live live]
    by_cases here : page' = page
    · rw [if_pos here, if_pos here, here]
    · rw [if_neg here, if_neg here]
  · simp [same, entry]

/-- A write fault that does something gives one page a new entry. The frame stays if the
count allows it, and is a fresh copy otherwise. -/
theorem cowFault_cases (live : s.spaces pid = some pml4) (addr : ℕ) :
    s.cowFault pid pml4 addr = s ∨ ∃ old new : Pte, s.entry pid (pageOf addr) = some old ∧
      (∀ p page, (s.cowFault pid pml4 addr).entry p page =
        if p = pid ∧ page = pageOf addr then some new else s.entry p page) ∧
      ((s.refs old.frame ≤ 1 ∧ new.frame = old.frame ∧
          (s.cowFault pid pml4 addr).toPhys = s.toPhys) ∨
        (1 < s.refs old.frame ∧ s.frames.IsFree new.frame ∧
          (s.cowFault pid pml4 addr).refs = refDec s.refs old.frame ∧
          (s.cowFault pid pml4 addr).data = update s.data new.frame (s.data old.frame))) := by
  unfold cowFault
  split_ifs with kernelHalf
  · exact .inl rfl
  cases handled : handleCowFault pml4 addr s.toPhys with
  | none => exact .inl rfl
  | some result =>
    obtain ⟨pml4', phys⟩ := result
    obtain ⟨old, found, -, ⟨low, rfl, rfl⟩ | ⟨high, newFrame, frames, called, rfl, rfl⟩⟩ :=
      handleCowFault_eq_some handled
    · refine .inr ⟨old, ⟨old.frame, old.flags.uncow⟩, (entry_of_live live _).trans found,
        fun p page => ?_, .inl ⟨low, rfl, rfl⟩⟩
      rw [entry_modify live, entry_of_live live, found, map_some]
    · refine .inr ⟨old, ⟨newFrame, old.flags.uncow⟩, (entry_of_live live _).trans found,
        fun p page => ?_, .inr ⟨high, ?_, rfl, rfl⟩⟩
      · rw [entry_modify live, entry_of_live live, found, map_some]
      · exact (BitmapFrameAllocator.allocFrame_eq_some called).1

section Entries

variable {old new : Pte} (found : s.entry pid page = some old) (entries : ∀ p page',
  t.entry p page' = if p = pid ∧ page' = page then some new else s.entry p page')

include found entries

/-- Who maps what after a page has got a new entry. -/
theorem Isolated.mapsFrame_of_entries (h : s.Isolated) :
    t.MapsFrame p frame ↔ (p = pid ∧ frame = new.frame) ∨
      (s.MapsFrame p frame ∧ ¬(p = pid ∧ frame = old.frame)) := by
  simp only [mapsFrame_iff, entries]
  constructor
  · rintro ⟨page', pte, now, rfl⟩
    split_ifs at now with here
    · cases now
      exact .inl ⟨here.1, rfl⟩
    · refine .inr ⟨⟨page', pte, now, rfl⟩, ?_⟩
      rintro ⟨rfl, same⟩
      exact here ⟨rfl, h.once now found same⟩
  · rintro (⟨rfl, rfl⟩ | ⟨⟨page', pte, before, rfl⟩, elsewhere⟩)
    · exact ⟨page, new, if_pos ⟨rfl, rfl⟩, rfl⟩
    refine ⟨page', pte, ?_, rfl⟩
    rw [if_neg, before]
    rintro ⟨rfl, rfl⟩
    rw [found] at before
    cases before
    exact elsewhere ⟨rfl, rfl⟩

section

variable (h : s.Isolated) (wf : t.WellFormed)

include h wf

theorem Isolated.sharers_of_same (same : new.frame = old.frame) (frame : ℕ) :
    t.sharers frame = s.sharers frame := by
  ext p
  rw [h.wf.mem_sharers, wf.mem_sharers, h.mapsFrame_of_entries found entries, same]
  constructor
  · rintro (⟨rfl, rfl⟩ | ⟨before, -⟩)
    · exact mapsFrame_iff.mpr ⟨page, old, found, rfl⟩
    · exact before
  · intro before
    by_cases here : p = pid ∧ frame = old.frame
    · exact .inl here
    · exact .inr ⟨before, here⟩

/-- An entry on a free frame takes the process from the sharers of the old frame. -/
theorem Isolated.sharers_of_free (fresh : s.frames.IsFree new.frame) (frame : ℕ) :
    t.sharers frame = if frame = new.frame then {pid} else
      if frame = old.frame then (s.sharers frame).erase pid else s.sharers frame := by
  ext p
  rw [wf.mem_sharers, h.mapsFrame_of_entries found entries]
  split_ifs with isNew isOld
  · rw [mem_singleton]
    refine ⟨fun place => (place.resolve_right fun before => ?_).1, fun same => .inl ⟨same, isNew⟩⟩
    exact h.wf.owns.mapped_used before.1 (isNew ▸ fresh)
  · rw [mem_erase, h.wf.mem_sharers]
    constructor
    · rintro (⟨-, same⟩ | ⟨before, elsewhere⟩)
      · exact absurd same isNew
      · exact ⟨fun same => elsewhere ⟨same, isOld⟩, before⟩
    · rintro ⟨other, before⟩
      exact .inr ⟨before, fun here => other here.1⟩
  · rw [h.wf.mem_sharers]
    exact ⟨fun place => (place.resolve_left fun here => isNew here.2).1,
      fun before => .inr ⟨before, fun here => isOld here.2⟩⟩

/-- A page whose frame nobody shares may become writable where it is. -/
theorem Isolated.unshare (low : s.refs old.frame ≤ 1) (same : new.frame = old.frame)
    (phys : t.toPhys = s.toPhys) : t.Isolated := by
  have origin {p : ℕ} {page' : Page} {pte : Pte} (now : t.entry p page' = some pte) :
      ∃ before, s.entry p page' = some before ∧ before.frame = pte.frame ∧
        (pte = before ∨ before.frame = old.frame) := by
    rw [entries] at now
    split_ifs at now with here
    · cases now
      obtain ⟨rfl, rfl⟩ := here
      exact ⟨old, found, same.symm, .inr rfl⟩
    · exact ⟨pte, now, rfl, .inl rfl⟩
  refine ⟨wf, fun now now' frames => ?_, fun now writable now' frames => ?_, fun frame shared => ?_⟩
  · obtain ⟨_, before, frame, -⟩ := origin now
    obtain ⟨_, before', frame', -⟩ := origin now'
    exact h.once before before' (frame.trans (frames.trans frame'.symm))
  · obtain ⟨_, before', frame', -⟩ := origin now'
    obtain ⟨_, before, frame, rfl | atOld⟩ := origin now
    · exact h.sole before writable before' (frames.trans frame'.symm)
    -- with a count of at most one nobody else maps the frame
    refine h.alone low (mapsFrame_iff.mpr ⟨_, _, before, atOld⟩)
      (mapsFrame_iff.mpr ⟨_, _, before', ?_⟩)
    rw [frame', ← frames, ← frame, atOld]
  · rw [h.sharers_of_same found entries wf same] at shared ⊢
    rw [phys]
    exact h.counted frame shared

theorem Isolated.copy (fresh : s.frames.IsFree new.frame)
    (refs : t.refs = refDec s.refs old.frame) : t.Isolated := by
  have origin {p : ℕ} {page' : Page} {pte : Pte} (now : t.entry p page' = some pte) :
      (p = pid ∧ page' = page ∧ pte = new) ∨
        (s.entry p page' = some pte ∧ pte.frame ≠ new.frame) := by
    rw [entries] at now
    split_ifs at now with here
    · cases now
      exact .inl ⟨here.1, here.2, rfl⟩
    · exact .inr ⟨now, fun same => h.wf.entry_used now (same ▸ fresh)⟩
  refine ⟨wf, fun now now' frames => ?_, fun now writable now' frames => ?_, fun frame shared => ?_⟩
  · rcases origin now with ⟨rfl, rfl, rfl⟩ | ⟨before, other⟩
    · rcases origin now' with ⟨-, rfl, -⟩ | ⟨-, other⟩
      · rfl
      · exact absurd frames.symm other
    · rcases origin now' with ⟨-, -, rfl⟩ | ⟨before', -⟩
      · exact absurd frames other
      · exact h.once before before' frames
  · rcases origin now with ⟨rfl, rfl, rfl⟩ | ⟨before, other⟩
    · rcases origin now' with ⟨rfl, -, -⟩ | ⟨-, other⟩
      · rfl
      · exact absurd frames.symm other
    · rcases origin now' with ⟨-, -, rfl⟩ | ⟨before', -⟩
      · exact absurd frames other
      · exact h.sole before writable before' frames
  · rw [h.sharers_of_free found entries wf fresh] at shared ⊢
    rw [refs, refDec, update_apply]
    split_ifs at shared ⊢ with isNew isOld isOld
    iterate 2
      rw [card_singleton] at shared
      omega
    · have mem : pid ∈ s.sharers frame :=
        h.wf.mem_sharers.mpr (mapsFrame_iff.mpr ⟨page, old, found, isOld.symm⟩)
      rw [card_erase_of_mem mem] at shared ⊢
      have counted := h.counted frame (by omega)
      rw [← isOld]
      omega
    · exact h.counted frame shared

end

end Entries

theorem Isolated.cowFault (h : s.Isolated) (live : s.spaces pid = some pml4) (addr : ℕ) :
    (s.cowFault pid pml4 addr).Isolated := by
  have wf := h.wf.cowFault live addr
  rcases cowFault_cases live addr with unchanged | ⟨old, new, found, entries, how⟩
  · rw [unchanged]
    exact h
  · rcases how with ⟨low, same, phys⟩ | ⟨-, fresh, refs, -⟩
    · exact h.unshare found entries wf low same phys
    · exact h.copy found entries wf fresh refs

theorem isSome_spaces_cowFault (live : s.spaces pid = some pml4) (addr : ℕ) :
    ((s.cowFault pid pml4 addr).spaces p).isSome = (s.spaces p).isSome := by
  unfold cowFault
  split_ifs
  · rfl
  split
  · rfl
  rw [spaces_withSpace]
  split_ifs with same
  · rw [same, live]
    rfl
  · rfl

/-- A write fault changes no view: a copied frame has the bytes of the original. -/
theorem WellFormed.view_cowFault (h : s.WellFormed) (live : s.spaces pid = some pml4)
    (addr p : ℕ) : (s.cowFault pid pml4 addr).view p = s.view p := by
  rcases cowFault_cases live addr with unchanged | ⟨old, new, found, entries, how⟩
  · rw [unchanged]
  funext addr'
  rw [view_eq, view_eq, entries]
  by_cases here : p = pid ∧ pageOf addr' = pageOf addr
  · rw [if_pos here, here.1, here.2, found]
    simp only [map_some]
    rcases how with ⟨-, same, phys⟩ | ⟨-, -, -, data⟩
    · rw [same, phys]
    · simp [data]
  · rw [if_neg here]
    rcases how with ⟨-, -, phys⟩ | ⟨-, fresh, -, data⟩
    · rw [phys]
    cases elsewhere : s.entry p (pageOf addr') with
    | none => rfl
    | some pte =>
      -- a frame that is mapped somewhere was not free
      have other : pte.frame ≠ new.frame := fun same => h.entry_used elsewhere (same ▸ fresh)
      simp [data, update_of_ne other]

/-! ## Writes -/

/-- Nobody else maps the frame behind an address of the process. -/
def OwnsPage (s : Kernel) (pid addr : ℕ) : Prop :=
  ∀ pte, s.entry pid (pageOf addr) = some pte → ∀ q, s.MapsFrame q pte.frame → q = pid

/-- A byte written through a page whose frame only one process maps changes one address of
one view. -/
theorem Isolated.view_pokeUser (h : s.Isolated) (live : s.spaces pid = some pml4)
    {write : ℕ × UInt8} (mapped : (translateUserAddr pml4 write.1).isSome)
    (own : s.OwnsPage pid write.1) (data : ℕ → ℕ → UInt8) (p : ℕ) :
    { s with data := pokeUser pml4 data write }.view p =
      if p = pid then update ({ s with data }.view pid) write.1 (some write.2)
      else { s with data }.view p := by
  obtain ⟨⟨frame, offset⟩, translated⟩ := isSome_iff_exists.mp mapped
  obtain ⟨user, rfl, pte, found, rfl⟩ := translateUserAddr_eq_some.mp translated
  rw [← entry_of_live live] at found
  have poke : pokeUser pml4 data write =
      writeBytes data pte.frame (pageOffset write.1) [write.2] := by
    simp [pokeUser, translated]
  funext addr
  by_cases target : p = pid ∧ addr = write.1
  · obtain ⟨rfl, rfl⟩ := target
    have found' : { s with data := pokeUser pml4 data write }.entry p (pageOf write.1) = some pte :=
      found
    rw [view_eq, if_neg (not_le.mpr user), found']
    simp [poke, writeBytes_singleton]
  · have rest : (if p = pid then update ({ s with data }.view pid) write.1 (some write.2)
        else { s with data }.view p) addr = { s with data }.view p addr := by
      split_ifs with same
      · subst same
        exact update_of_ne (fun same => target ⟨rfl, same⟩) _ _
      · rfl
    rw [rest, view_eq, view_eq]
    split_ifs with kernelHalf
    · rfl
    change ((s.entry p (pageOf addr)).map Pte.frame).map _ =
      ((s.entry p (pageOf addr)).map Pte.frame).map _
    cases elsewhere : s.entry p (pageOf addr) with
    | none => rfl
    | some other =>
      simp only [map_some, poke, writeBytes_singleton]
      rw [if_neg]
      -- the same byte of the same frame would be the same address of the same process
      rintro ⟨same, offset⟩
      refine target ⟨own pte found p (mapsFrame_iff.mpr ⟨_, other, elsewhere, same⟩), ?_⟩
      exact addr_eq_of_page (not_le.mp kernelHalf) user (h.once elsewhere found same) offset

theorem Isolated.view_writes (h : s.Isolated) (live : s.spaces pid = some pml4)
    (writes : List (ℕ × UInt8)) (data : ℕ → ℕ → UInt8)
    (own : ∀ write ∈ writes, (translateUserAddr pml4 write.1).isSome ∧ s.OwnsPage pid write.1) :
    { s with data := writes.foldl (pokeUser pml4) data }.view p =
      if p = pid then replay writes ({ s with data }.view pid) else { s with data }.view p := by
  induction writes generalizing data with
  | nil =>
    split_ifs with same
    · rw [same]
      rfl
    · rfl
  | cons write writes ih =>
    obtain ⟨mapped, alone⟩ := own write (by simp)
    have first := h.view_pokeUser live mapped alone data
    have later := ih (pokeUser pml4 data write) fun write mem => own write (by simp [mem])
    rw [List.foldl_cons, later]
    split_ifs with same
    · rw [first, if_pos rfl]
      rfl
    · rw [first, if_neg same]

theorem Isolated.withData (h : s.Isolated) (data : ℕ → ℕ → UInt8) : { s with data }.Isolated :=
  ⟨h.wf.withData data, h.once, h.sole, h.counted⟩

theorem writes_of_ne (other : p ≠ e.pid) : s.writes e p = [] := by
  unfold writes
  split
  · exact if_neg fun h => other h.1.symm
  · exact if_neg fun same => other same.symm
  · rfl

/-- A store that the entry allows is a write to a page of the process's own. -/
theorem Isolated.store_own (h : s.Isolated) (live : s.spaces pid = some pml4) {addr : ℕ}
    (allowed : writablePte pml4 addr = some pte) :
    translateUserAddr pml4 addr = some (pte.frame, pageOffset addr) ∧ s.OwnsPage pid addr := by
  unfold writablePte at allowed
  split_ifs at allowed with kernelHalf
  obtain ⟨found, flags⟩ := filter_eq_some_iff.mp allowed
  rw [Bool.and_eq_true, Bool.and_eq_true] at flags
  refine ⟨translateUserAddr_eq_some.mpr ⟨not_le.mp kernelHalf, rfl, pte, found, rfl⟩, ?_⟩
  intro same found' q maps
  rw [entry_of_live live, found] at found'
  cases found'
  obtain ⟨_, _, elsewhere, frame⟩ := mapsFrame_iff.mp maps
  exact (h.sole ((entry_of_live live _).trans found) flags.1.1 elsewhere frame.symm).symm

end Kernel

/-! ## Runs -/

/-- The event keeps the processes apart: `copy_to_user` goes to pages whose frames nobody
else maps, and a fork does not overflow a reference count. Programs are neither loaded
nor ended. -/
def Kernel.Separate (s : Kernel) : Event → Prop
  | .fork pid => ∀ frame, s.MapsFrame pid frame → s.refs frame + 1 < 2 ^ 32
  | .cowFault _ _ | .store _ _ _ => True
  | .copyToUser pid dstVaddr src =>
    ∀ addr, dstVaddr ≤ addr → addr < dstVaddr + src.length → addr < userEnd →
      ∀ pte, s.entry pid (pageOf addr) = some pte → ∀ q, s.MapsFrame q pte.frame → q = pid
  | .exec _ _ | .exit _ => False

namespace Kernel

variable {s t : Kernel} {pid : ℕ} {pml4 : Space}

/-- What a step does to the processes there are: it keeps them apart and alive, and each
sees its own writes only. -/
structure Isolates (s : Kernel) (e : Event) (t : Kernel) : Prop where
  isolated : t.Isolated
  alive : ∀ {p}, (s.spaces p).isSome → (t.spaces p).isSome
  view_eq : ∀ {p}, (s.spaces p).isSome → t.view p = replay (s.writes e p) (s.view p)

/-- The events that change nothing but bytes. -/
theorem Isolated.write (h : s.Isolated) (live : s.spaces e.pid = some pml4)
    (own : ∀ write ∈ s.writes e e.pid, (translateUserAddr pml4 write.1).isSome ∧ s.OwnsPage e.pid
      write.1) :
    s.Isolates e { s with data := (s.writes e e.pid).foldl (pokeUser pml4) s.data } := by
  refine ⟨h.withData _, id, fun {p} _ => ?_⟩
  rw [h.view_writes live _ s.data own]
  split_ifs with same
  · rw [same]
  · rw [writes_of_ne same]
    rfl

theorem Isolated.step (h : s.Isolated) (separate : s.Separate e) (step : s.Step e t) :
    s.Isolates e t := by
  obtain ⟨pml4, live, applied⟩ := bind_eq_some_iff.mp step
  have silent {p : ℕ} (quiet : s.writes e e.pid = []) : s.writes e p = [] := by
    by_cases same : p = e.pid
    · rw [same, quiet]
    · exact writes_of_ne same
  cases e with
  | fork pid =>
    refine ⟨h.fork live applied separate, fun {p} alive => ?_, fun {p} alive => ?_⟩
    · obtain ⟨st, -, rfl⟩ := map_eq_some_iff.mp applied
      simp only [update_apply]
      split_ifs
      · rfl
      · rfl
      · exact alive
    · rw [silent (by simp [writes]), h.wf.view_fork live applied alive]
      rfl
  | cowFault pid addr =>
    change s.spaces pid = some pml4 at live
    cases applied
    refine ⟨h.cowFault live addr, (isSome_spaces_cowFault live addr).trans, fun {p} _ => ?_⟩
    rw [silent (by simp [writes]), h.wf.view_cowFault live addr]
    rfl
  | store pid addr byte =>
    change s.spaces pid = some pml4 at live
    cases applied
    cases allowed : writablePte pml4 addr with
    | none =>
      have quiet : s.writes (.store pid addr byte) pid = [] := by
        simp [writes, live, allowed]
      have same : s.store pml4 addr byte = s := by simp [store, allowed]
      rw [same]
      exact ⟨h, id, fun _ => by rw [silent quiet]; rfl⟩
    | some pte =>
      obtain ⟨translated, own⟩ := h.store_own live allowed
      have write : s.writes (.store pid addr byte) pid = [(addr, byte)] := by
        simp [writes, live, allowed]
      have isolates := h.write (e := .store pid addr byte) live
      rw [Event.pid, write] at isolates
      simpa [store, allowed, pokeUser, translated] using isolates (by simpa [translated] using own)
  | copyToUser pid dstVaddr src =>
    change s.spaces pid = some pml4 at live
    cases applied
    have write : s.writes (.copyToUser pid dstVaddr src) pid = copied pml4 dstVaddr src := by
      simp [writes, live]
    rw [copyToUser_eq, ← write]
    refine h.write live fun write' mem => ?_
    rw [Event.pid, write] at mem
    obtain ⟨above, below, mapped⟩ := mem_copied mem
    refine ⟨mapped, separate write'.1 above below ?_⟩
    obtain ⟨⟨_, _⟩, translated⟩ := isSome_iff_exists.mp mapped
    exact (translateUserAddr_eq_some.mp translated).1
  | exec | exit => exact separate.elim

end Kernel

theorem replay_append (first second : List (ℕ × UInt8)) (view : ℕ → Option UInt8) :
    replay (first ++ second) view = replay second (replay first view) :=
  List.foldl_append

/-- Start where every user frame is mapped once. In every run that keeps the processes
apart, whatever a process sees at the end is what it saw at any earlier point of its
life, changed by the writes made for it since then. -/
theorem view_run {s t u : Kernel} {before after : List Event} {pid : ℕ} (start : s.Private)
    (first : Run (Guarded Kernel.Separate Kernel.Step) s before t)
    (second : Run (Guarded Kernel.Separate Kernel.Step) t after u) (alive : (t.spaces pid).isSome) :
    u.view pid = replay (t.writesAlong after pid) (t.view pid) := by
  have isolated : t.Isolated :=
    first.invariant (fun step h => (h.step step.1 step.2).isolated) start.isolated
  clear first start
  -- from here on only the invariant of the state in between matters
  induction second with
  | nil t => rfl
  | @cons t _ _ e _ step _ ih =>
    have isolates := isolated.step step.1 step.2
    have next : t.step e = some _ := step.2
    rw [ih (isolates.alive alive) isolates.isolated, isolates.view_eq alive, Kernel.writesAlong,
      next, replay_append]

/-! ## A write that is seen by another process -/

section

variable {s : Kernel} {pid : ℕ} {pml4 pml4' : Space} {phys : Phys} (h : s.Private)
  (live : s.spaces pid = some pml4)

include h live

/-- Pages of a new program are on frames of their own. -/
theorem Kernel.Private.mapImagePage {image : ImagePage}
    (mapped : mapImagePage image pml4 s.toPhys = some (pml4', phys)) :
    (s.withSpace pid (some pml4') phys).Private := by
  refine ⟨h.wf.mapImagePage live mapped, fun {p q page page' pte pte'} found found' same => ?_⟩
  obtain ⟨frame, frames, called, inserted, -⟩ := mapImagePage_eq_some mapped
  have fresh := (BitmapFrameAllocator.allocFrame_eq_some called).1
  have spec := insert_spec frameSupply image.flags.writable ⟨frame, image.flags⟩ pml4 image.page
    frames
  rw [← mapPage, inserted] at spec
  -- an entry is the new one, on the fresh frame, or an old one, on a frame in use
  have origin {p : ℕ} {page : Page} {pte : Pte}
      (found : (s.withSpace pid (some pml4') phys).entry p page = some pte) :
      (p = pid ∧ page = image.page ∧ pte.frame = frame) ∨
        (s.entry p page = some pte ∧ pte.frame ≠ frame) := by
    have old (before : s.entry p page = some pte) : pte.frame ≠ frame :=
      fun same => h.wf.entry_used before (same ▸ fresh)
    rw [entry, spaces_withSpace] at found
    split_ifs at found with here
    · rw [bind_some, spec.lookup_eq] at found
      split_ifs at found with new
      · cases found
        exact .inl ⟨here, new.2, rfl⟩
      · rw [← entry_of_live live, ← here] at found
        exact .inr ⟨found, old found⟩
    · exact .inr ⟨found, old found⟩
  rcases origin found with ⟨rfl, rfl, new⟩ | ⟨before, other⟩
  · rcases origin found' with ⟨rfl, rfl, -⟩ | ⟨-, other'⟩
    · exact ⟨rfl, rfl⟩
    · exact absurd (same.symm.trans new) other'
  · rcases origin found' with ⟨-, -, new'⟩ | ⟨before', -⟩
    · exact absurd (same.trans new') other
    · exact h.exclusive before before' same

theorem Kernel.Private.loadImage {image : List ImagePage}
    (loaded : loadImage image pml4 s.toPhys = some (pml4', phys)) :
    (s.withSpace pid (some pml4') phys).Private ∧ phys.refs = s.refs := by
  induction image generalizing s pml4 with
  | nil =>
    cases loaded
    have same : s.withSpace pid (some pml4') s.toPhys = s := by
      simp [withSpace, ← live]
    rw [same]
    exact ⟨h, rfl⟩
  | cons first rest ih =>
    obtain ⟨⟨middle, phys'⟩, mapped, loaded⟩ := bind_eq_some_iff.mp loaded
    obtain ⟨again, refs⟩ := ih (h.mapImagePage live mapped) (by simp [spaces_withSpace]) loaded
    obtain ⟨_, _, -, -, before⟩ := mapImagePage_eq_some mapped
    refine ⟨?_, refs.trans before⟩
    simpa [withSpace] using again

end

/-- One process with one writable page at `0x1000`. -/
def pageKernel : Kernel :=
  match loadImage tinyImage (.node 1 true fun _ => .absent) bootKernel.toPhys with
  | none => bootKernel
  | some (pml4, phys) => bootKernel.withSpace 1 (some pml4) phys

theorem pageKernel_private : pageKernel.Private ∧ pageKernel.refs = fun _ => 0 := by
  have boot : bootKernel.Private :=
    ⟨bootKernel_wellFormed, fun found => absurd (Kernel.mapsFrame_iff.mpr ⟨_, _, found, rfl⟩)
      bootKernel_mapsFrame⟩
  unfold pageKernel
  cases loaded : loadImage tinyImage (.node 1 true fun _ => .absent) bootKernel.toPhys with
  | none => exact ⟨boot, rfl⟩
  | some result => exact boot.loadImage rfl loaded

/-- The parent faults on a shared page and writes to its copy. The child does not see it. -/
theorem view_run_store : ∃ t u, Run (Guarded Kernel.Separate Kernel.Step) pageKernel [.fork 1] t ∧
      Run (Guarded Kernel.Separate Kernel.Step) t [.cowFault 1 0x1000, .store 1 0x1000 7] u ∧
      u.view 2 = replay (t.writesAlong [.cowFault 1 0x1000, .store 1 0x1000 7] 2) (t.view 2) ∧
      u.view 1 0x1000 = some 7 ∧ u.view 2 0x1000 = some 0 := by
  have runs : ((pageKernel.step (.fork 1)).bind fun t =>
      (t.step (.cowFault 1 0x1000)).bind fun t' => (t'.step (.store 1 0x1000 7)).map fun u =>
        ((t.spaces 2).isSome, u.view 1 0x1000, u.view 2 0x1000)) =
      some (true, some 7, some 0) := by
    decide +kernel
  obtain ⟨t, forked, runs⟩ := bind_eq_some_iff.mp runs
  obtain ⟨t', faulted, runs⟩ := bind_eq_some_iff.mp runs
  obtain ⟨u, stored, facts⟩ := map_eq_some_iff.mp runs
  simp only [Prod.mk.injEq] at facts
  obtain ⟨alive, views⟩ := facts
  have first : Run (Guarded Kernel.Separate Kernel.Step) pageKernel [.fork 1] t := by
    refine .cons ⟨fun frame _ => ?_, forked⟩ (.nil _)
    simp [pageKernel_private.2]
  have second : Run (Guarded Kernel.Separate Kernel.Step) t
      [.cowFault 1 0x1000, .store 1 0x1000 7] u :=
    .cons ⟨trivial, faulted⟩ (.cons ⟨trivial, stored⟩ (.nil _))
  exact ⟨t, u, first, second, view_run pageKernel_private.1 first second alive, views⟩

/-- The event is a fork, a write fault, a store or a `copy_to_user`. -/
def Event.OfRunning : Event → Prop
  | .exec _ _ | .exit _ => False
  | _ => True

/-- After a fork, `copy_to_user` for the child writes to the page that the parent still
shares. -/
theorem not_view_run : ¬∀ (s t u : Kernel) (before after : List Event) (pid : ℕ), s.Private →
    (∀ e ∈ before ++ after, e.OfRunning) → Run Kernel.Step s before t → Run Kernel.Step t after u →
    (t.spaces pid).isSome → u.view pid = replay (t.writesAlong after pid) (t.view pid) := by
  intro claim
  have seen : ([.fork 1].foldlM Kernel.step pageKernel).bind (fun t =>
      ([.copyToUser 2 0x1000 [7]].foldlM Kernel.step t).map fun u =>
        ((t.spaces 1).isSome, t.writesAlong [.copyToUser 2 0x1000 [7]] 1, t.view 1 0x1000,
          u.view 1 0x1000)) = some (true, [], some 0, some 7) := by
    decide +kernel
  obtain ⟨t, executed, seen⟩ := bind_eq_some_iff.mp seen
  obtain ⟨u, executed', facts⟩ := map_eq_some_iff.mp seen
  simp only [Prod.mk.injEq] at facts
  obtain ⟨alive, silent, old, new⟩ := facts
  have same := claim pageKernel t u _ _ 1 pageKernel_private.1 (by simp [Event.OfRunning])
    (Run.of_foldlM executed) (Run.of_foldlM executed') alive
  rw [silent] at same
  have contradiction : some (7 : UInt8) = some 0 :=
    new.symm.trans ((congrFun same 0x1000).trans old)
  cases contradiction

end SmartOs.Memory
