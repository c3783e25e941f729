/-
# Copy-on-write fork

`cow_fork` gives the child its own tables but the parent's data frames. Every page that
was writable becomes read-only in both spaces and is marked with `bit9`; a reference
count per frame records how many mappings share it. A write fault on a marked page either
makes it writable again, when the count says that nobody shares it, or moves the page to
a fresh copy.

`cowFork_eq` replaces the recursion over tables, with its address arithmetic, by a loop
over the mapped pages; `Forked` is what that loop amounts to.
-/

import SmartOs.Memory.Paging

namespace SmartOs.Memory

open SmartOs.CS SmartOs.Math List RadixTree Nat

/-! ## Reference counts -/

/-- `REFCOUNTS`. A frame that is not in the map has count `0`, and an entry that drops to
`0` is removed. -/
abbrev Refs := ℕ → ℕ

/-- Increment a frame's count, which is a `u32`. -/
def refInc (refs : Refs) (frame : ℕ) : Refs :=
  Function.update refs frame ((refs frame + 1) % 2 ^ 32)

/-- Decrement a frame's count, which stays at `0`. -/
def refDec (refs : Refs) (frame : ℕ) : Refs :=
  Function.update refs frame (refs frame - 1)

/-! ## Fork -/

/-- What a fork works on: both spaces, the frame allocator and the reference counts. -/
structure ForkState where
  parent : Space
  child : Space
  frames : BitmapFrameAllocator
  refs : Refs

variable (flags : PageTableFlags) (l4Index : ℕ)

/-- The flags of a page that is shared: a writable page becomes a marked read-only one. -/
def PageTableFlags.cow : PageTableFlags :=
  if flags.writable then { flags with writable := false, bit9 := true } else flags

theorem PageTableFlags.writable_cow : flags.cow.writable = false := by
  unfold cow
  split_ifs with writable
  · rfl
  · simpa using writable

/-- The leaf case of `cow_clone_recursive`: share one page between parent and child. -/
def sharePage (page : Page) (pte : Pte) (st : ForkState) : ForkState :=
  let cowFlags := pte.flags.cow
  let parent :=
    if pte.flags.writable then st.parent.modify (fun pte => { pte with flags := cowFlags }) page
    else st.parent
  -- a failed mapping is ignored, and the count is raised all the same
  let (child, frames, _) := mapPage st.child page pte.frame cowFlags st.frames
  let refs := refInc st.refs pte.frame
  -- the first share also counts the original owner
  let refs := if refs pte.frame = 1 then refInc refs pte.frame else refs
  { parent, child, frames, refs }

/-- The address prefix that entry `idx` of a table at `level` adds to `vaddrBase`. -/
def entryAddr (level vaddrBase idx : ℕ) : ℕ :=
  if level = 3 then l4Index <<< 39 ||| idx <<< 30
  else vaddrBase ||| idx <<< (if level = 2 then 21 else 12)

/-- Walk an entry at some level, sharing the pages below it; `vaddr` is its address. -/
def cowCloneRecursive : {level : ℕ} → Slot level → (vaddr : ℕ) → ForkState → ForkState
  | _, .absent, _, st => st
  | _, .leaf pte, vaddr, st => sharePage (pageOf vaddr) pte st
  | level + 1, .node _ _ entries, vaddr, st =>
    (finRange _).foldl (fun st idx =>
      cowCloneRecursive (entries idx) (entryAddr l4Index (level + 1) vaddr idx) st) st

def cowFork (src : Space) (frames : BitmapFrameAllocator) (refs : Refs) : Option ForkState :=
  match createUserPageTable frames with
  | none => none
  | some (child, frames) =>
    let st : ForkState := { parent := src, child, frames, refs }
    match src with
    | .absent => some st
    | .node _ _ entries =>
      some ((finRange _).foldl (fun st i => cowCloneRecursive i.val (entries i) 0 st) st)

/-! ## Write faults -/

/-- Physical memory: the frame allocator, the reference counts and the bytes of frames. -/
structure Phys where
  frames : BitmapFrameAllocator
  refs : Refs
  data : ℕ → ℕ → UInt8

/-- A page after its fault has been handled. -/
def PageTableFlags.uncow : PageTableFlags :=
  { flags with writable := true, bit9 := false }

/-- Handle a write fault; `none` if it is not a copy-on-write fault or no frame is left,
and then nothing has changed. -/
def handleCowFault (pml4 : Space) (faultAddr : ℕ) (phys : Phys) : Option (Space × Phys) :=
  let page := pageOf faultAddr
  match pml4.lookup page with
  | none => none
  | some pte =>
    if pte.flags.bit9 = false then none
    else if phys.refs pte.frame ≤ 1 then
      some (pml4.modify (fun pte => { pte with flags := pte.flags.uncow }) page, phys)
    else
      match phys.frames.allocFrame with
      | (none, _) => none
      | (some newFrame, frames) =>
        some (pml4.modify (fun pte => { frame := newFrame, flags := pte.flags.uncow }) page,
          { frames, refs := refDec phys.refs pte.frame
            data := Function.update phys.data newFrame (phys.data pte.frame) })

/-- The two ways in which a fault is handled. -/
theorem handleCowFault_eq_some {pml4 pml4' : Space} {addr : ℕ} {phys phys' : Phys}
    (handled : handleCowFault pml4 addr phys = some (pml4', phys')) :
    ∃ pte, pml4.lookup (pageOf addr) = some pte ∧ pte.flags.bit9 ∧
      ((phys.refs pte.frame ≤ 1 ∧ phys' = phys ∧
          pml4' = pml4.modify (fun pte => { pte with flags := pte.flags.uncow }) (pageOf addr)) ∨
        (1 < phys.refs pte.frame ∧ ∃ newFrame frames,
          phys.frames.allocFrame = (some newFrame, frames) ∧
          phys' = ⟨frames, refDec phys.refs pte.frame,
            Function.update phys.data newFrame (phys.data pte.frame)⟩ ∧
          pml4' = pml4.modify (fun pte => { frame := newFrame, flags := pte.flags.uncow })
            (pageOf addr))) := by
  unfold handleCowFault at handled
  cases found : pml4.lookup (pageOf addr) with
  | none => simp [found] at handled
  | some pte =>
    simp only [found] at handled
    refine ⟨pte, rfl, ?_⟩
    by_cases marked : pte.flags.bit9 = false
    · simp [marked] at handled
    rw [if_neg marked] at handled
    refine ⟨by simpa using marked, ?_⟩
    by_cases sole : phys.refs pte.frame ≤ 1
    · rw [if_pos sole] at handled
      cases handled
      exact .inl ⟨sole, rfl, rfl⟩
    rw [if_neg sole] at handled
    cases called : phys.frames.allocFrame with
    | mk result frames =>
      cases result with
      | none => simp [called] at handled
      | some newFrame =>
        simp only [called] at handled
        cases handled
        exact .inr ⟨not_le.mp sole, newFrame, frames, rfl, rfl, rfl⟩

/-! ## The walk of a fork, page by page -/

/-- The address the walk computes for the page at the end of a path. -/
def walkAddr : {level : ℕ} → TreePath fanout level → ℕ → ℕ
  | _, .nil, vaddr => vaddr
  | level + 1, .cons idx rest, vaddr =>
    walkAddr rest (entryAddr l4Index (level + 1) vaddr idx)

theorem tableIndex_eq (shift addr : ℕ) : tableIndex shift addr = addr / 2 ^ shift % 512 := by
  rw [tableIndex, shiftRight_eq_div_pow]
  exact and_two_pow_sub_one_eq_mod _ 9

private theorem lor_shiftLeft_eq_add {base idx shift : ℕ} (top : ℕ) (small : idx < 512)
    (aligned : base = top * 2 ^ (shift + 9)) : base ||| idx <<< shift = base + idx * 2 ^ shift := by
  have below : idx <<< shift < 2 ^ (shift + 9) := by
    rw [shiftLeft_eq, pow_add, mul_comm]
    exact Nat.mul_lt_mul_of_pos_left small (Nat.two_pow_pos shift)
  rw [aligned, ← shiftLeft_eq top, ← shiftLeft_add_eq_or_of_lt below, shiftLeft_eq idx]

/-- The address of the walk has the indices of the path it followed. -/
theorem pageOf_walkAddr (i : Fin (fanout 3)) (rest : TreePath fanout 3) :
    pageOf (walkAddr i rest 0) = .cons i rest := by
  cases rest with
  | cons i3 rest => cases rest with
    | cons i2 rest => cases rest with
      | cons i1 rest =>
        cases rest
        have h4 : i.val < 256 := i.isLt
        have h3 : i3.val < 512 := i3.isLt
        have h2 : i2.val < 512 := i2.isLt
        have h1 : i1.val < 512 := i1.isLt
        -- the indices occupy different bits, so joining them adds them up
        have addr : walkAddr i (.cons i3 (.cons i2 (.cons i1 .nil))) 0 =
            i * 2 ^ 39 + i3 * 2 ^ 30 + i2 * 2 ^ 21 + i1 * 2 ^ 12 := by
          change ((i.val <<< 39 ||| i3.val <<< 30) ||| i2.val <<< 21) ||| i1.val <<< 12 = _
          rw [shiftLeft_eq i.val, lor_shiftLeft_eq_add i.val h3 rfl,
            lor_shiftLeft_eq_add (i * 512 + i3) h2 (by omega),
            lor_shiftLeft_eq_add (i * 2 ^ 18 + i3 * 512 + i2) h1 (by omega)]
        simp only [pageOf, tableIndex_eq]
        congr
        all_goals
          apply Fin.ext
          simp only [Fin.val_ofNat]
          omega

theorem cowCloneRecursive_eq {level : ℕ} (slot : Slot level) (vaddr : ℕ) (st : ForkState) :
    cowCloneRecursive l4Index slot vaddr st = slot.leaves.foldl (fun st (leaf : _ × Pte) =>
    sharePage (pageOf (walkAddr l4Index leaf.1 vaddr)) leaf.2 st) st := by
  induction slot generalizing vaddr st with
  | absent => rfl
  | leaf pte => rfl
  | node table gate entries ih =>
    simp only [cowCloneRecursive, leaves, foldl_flatMap, foldl_map, ih]
    rfl

/-- A fork visits the mapped pages of the parent in order. -/
theorem cowFork_eq (src : Space) (frames : BitmapFrameAllocator) (refs : Refs) :
    cowFork src frames refs = (createUserPageTable frames).map fun (child, frames) =>
      src.leaves.foldl (fun st (leaf : _ × Pte) => sharePage leaf.1 leaf.2 st)
        ⟨src, child, frames, refs⟩ := by
  unfold cowFork
  cases createUserPageTable frames with
  | none => rfl
  | some made =>
    cases src with
    | absent => rfl
    | node table gate entries =>
      simp [leaves, foldl_flatMap, foldl_map, cowCloneRecursive_eq, pageOf_walkAddr]

/-! ## What a fork does -/

/-- A page table entry after its page has been shared. -/
def Pte.cow (pte : Pte) : Pte := { pte with flags := pte.flags.cow }

@[simp] theorem Pte.cow_frame (pte : Pte) : pte.cow.frame = pte.frame := rfl

theorem Pte.cow_of_not_writable {pte : Pte} (readOnly : pte.flags.writable = false) :
    pte.cow = pte := by
  simp [cow, PageTableFlags.cow, readOnly]

/-- What sharing the pages `shared` does to the two spaces and the allocator. -/
structure Shares (shared : List (Page × Pte)) (st st' : ForkState) : Prop where
  parent_lookup : ∀ page, st'.parent.lookup page =
    if page ∈ shared.map Prod.fst then (st.parent.lookup page).map Pte.cow
    else st.parent.lookup page
  parent_open : ∀ page, st'.parent.isOpen page = st.parent.isOpen page
  parent_labels : ∀ l, st'.parent.Labels l ↔ st.parent.Labels l
  parent_apart : st.parent.RootApart → st'.parent.RootApart
  child_lookup : ∀ page pte, st'.child.lookup page = some pte →
    st.child.lookup page = some pte ∨ ∃ old, (page, old) ∈ shared ∧ pte = old.cow
  child_closed : st.child.ClosedBelow → st'.child.ClosedBelow
  child_labels : ∀ l, st'.child.Labels l →
    st.child.Labels l ∨ (st.frames.IsFree l ∧ ¬st'.frames.IsFree l)
  child_apart : (∀ l, st.child.Labels l → ¬st.frames.IsFree l) →
    st.child.RootApart → st'.child.RootApart
  free : ∀ frame, st'.frames.IsFree frame → st.frames.IsFree frame

variable {st : ForkState}

theorem sharePage_shares {page : Page} {pte : Pte} (found : st.parent.lookup page = some pte) :
    Shares [(page, pte)] st (sharePage page pte st) := by
  have inserted := insert_spec frameSupply pte.flags.cow.writable
    (⟨pte.frame, pte.flags.cow⟩ : Pte) st.child page st.frames
  refine ⟨fun other => ?_, fun other => ?_, fun l => ?_, fun apart => ?_,
    fun other entry found' => ?_, fun closed => ?_, inserted.labels_new,
    fun taken apart => apart.insert frameSupply taken _ _ _, inserted.available⟩
  · simp only [sharePage]
    by_cases same : other = page
    · subst same
      cases writable : pte.flags.writable with
      | true => simp [lookup_modify, found, Pte.cow]
      | false => simp [found, Pte.cow_of_not_writable writable]
    · cases pte.flags.writable <;> simp [lookup_modify, same]
  · simp only [sharePage]
    split_ifs
    · exact isOpen_modify _ _
    · rfl
  · simp only [sharePage]
    split_ifs
    · exact labels_modify
    · rfl
  · simp only [sharePage]
    split_ifs
    · exact apart.modify _ _
    · exact apart
  · have inserted := (inserted.lookup_eq other).symm.trans found'
    split_ifs at inserted with here
    · cases inserted
      exact .inr ⟨pte, by simp [here.2], rfl⟩
    · exact .inl inserted
  · rw [sharePage, mapPage, pte.flags.writable_cow]
    exact closed.insert frameSupply _ _ page

/-- Sharing the pages of a list one after the other. -/
theorem foldl_sharePage_shares (shared : List (Page × Pte)) (st : ForkState)
    (found : ∀ leaf ∈ shared, st.parent.lookup leaf.1 = some leaf.2)
    (distinct : (shared.map Prod.fst).Nodup) :
    Shares shared st (shared.foldl (fun st (leaf : _ × Pte) => sharePage leaf.1 leaf.2 st) st) := by
  induction shared generalizing st with
  | nil => exact ⟨by simp, fun _ => rfl, fun _ => Iff.rfl, id, fun _ _ => .inl, id, fun _ => .inl,
      fun _ => id, fun _ => id⟩
  | cons leaf rest ih =>
    obtain ⟨page, pte⟩ := leaf
    obtain ⟨fresh, distinct⟩ := nodup_cons.mp distinct
    have head := sharePage_shares (found (page, pte) (by simp))
    -- no page is visited twice, so the entries still to come are as they were
    have untouched : ∀ leaf ∈ rest, (sharePage page pte st).parent.lookup leaf.1 = some leaf.2 := by
      intro leaf mem
      have other : leaf.1 ≠ page := fun same =>
        fresh (mem_map.mpr ⟨leaf, mem, same⟩)
      rw [head.parent_lookup]
      simpa [other] using found leaf (by simp [mem])
    have tail := ih _ untouched distinct
    refine ⟨fun other => ?_, fun other => (tail.parent_open other).trans (head.parent_open other),
      fun l => (tail.parent_labels l).trans (head.parent_labels l),
      fun apart => tail.parent_apart (head.parent_apart apart), fun other entry found' => ?_,
      fun closed => tail.child_closed (head.child_closed closed), fun l label => ?_,
      fun taken apart => ?_, fun frame free => head.free _ (tail.free _ free)⟩
    · rw [foldl_cons, tail.parent_lookup, head.parent_lookup]
      by_cases same : other = page
      · subst same
        simp [fresh]
      · simp only [map_cons, map_nil, mem_cons, not_mem_nil, same, false_or, if_false]
    · rcases tail.child_lookup other entry found' with earlier | ⟨old, mem, rfl⟩
      · rcases head.child_lookup other entry earlier with before | ⟨old, mem, rfl⟩
        · exact .inl before
        · exact .inr ⟨old, by simp_all, rfl⟩
      · exact .inr ⟨old, by simp [mem], rfl⟩
    · rcases tail.child_labels l label with earlier | ⟨free, taken⟩
      · exact (head.child_labels l earlier).imp_right fun ⟨free, taken⟩ =>
          ⟨free, fun later => taken (tail.free l later)⟩
      · exact .inr ⟨head.free l free, taken⟩
    · refine tail.child_apart (fun l label => ?_) (head.child_apart taken apart)
      rcases head.child_labels l label with before | ⟨-, used⟩
      · exact fun free => taken l before (head.free l free)
      · exact used

/-- What a successful fork of `src` does. -/
structure Forked (src : Space) (frames : BitmapFrameAllocator) (st : ForkState) : Prop where
  parent_lookup : ∀ page, st.parent.lookup page = (src.lookup page).map Pte.cow
  parent_open : ∀ page, st.parent.isOpen page = src.isOpen page
  parent_labels : ∀ l, st.parent.Labels l ↔ src.Labels l
  parent_apart : src.RootApart → st.parent.RootApart
  child_lookup : ∀ page pte, st.child.lookup page = some pte →
    ∃ old, src.lookup page = some old ∧ pte = old.cow
  child_open : ∀ page, st.child.isOpen page = false
  child_labels : ∀ l, st.child.Labels l → frames.IsFree l ∧ ¬st.frames.IsFree l
  child_apart : st.child.RootApart
  free : ∀ frame, st.frames.IsFree frame → frames.IsFree frame

variable {frames : BitmapFrameAllocator}

theorem createUserPageTable_eq_some {frames' : BitmapFrameAllocator} {pml4 : Space}
    (made : createUserPageTable frames = some (pml4, frames')) :
    ∃ frame, frames.allocFrame = (some frame, frames') ∧
      pml4 = .node frame true fun _ => .absent := by
  unfold createUserPageTable at made
  cases called : frames.allocFrame with
  | mk result rest =>
    cases result with
    | none => simp [called] at made
    | some frame =>
      simp only [called] at made
      obtain ⟨rfl, rfl⟩ := made
      exact ⟨frame, rfl, rfl⟩

theorem cowFork_forked {src : Space} {refs : Refs} (forked : cowFork src frames refs = some st) :
    Forked src frames st := by
  rw [cowFork_eq, Option.map_eq_some_iff] at forked
  obtain ⟨⟨child, frames'⟩, made, rfl⟩ := forked
  obtain ⟨root, called, rfl⟩ := createUserPageTable_eq_some made
  have used := BitmapFrameAllocator.isFree_allocFrame called
  have loop := foldl_sharePage_shares src.leaves
    ⟨src, .node root true fun _ => .absent, frames', refs⟩
    (fun leaf member => mem_leaves.mp member) src.nodup_leaves
  -- the child starts with its PML4 and nothing else
  have rootLabel : ∀ l, (node root true fun _ => .absent : Space).Labels l → l = root := by
    rintro l (rfl | ⟨_, impossible⟩)
    · rfl
    · exact impossible.elim
  refine ⟨fun page => ?_, loop.parent_open, loop.parent_labels, loop.parent_apart,
    fun page pte found => ?_, (loop.child_closed fun _ => trivial).isOpen, fun l label => ?_,
    loop.child_apart (fun l label free => ?_) fun _ => id, fun frame free => ?_⟩
  · rw [loop.parent_lookup]
    split_ifs with listed
    · rfl
    cases found : src.lookup page with
    | none => rfl
    | some pte => exact absurd (mem_map_of_mem (mem_leaves.mpr found)) listed
  · rcases loop.child_lookup page pte found with impossible | ⟨old, member, same⟩
    · cases page
      cases impossible
    · exact ⟨old, mem_leaves.mp member, same⟩
  · rcases loop.child_labels l label with first | ⟨free, taken⟩
    · obtain rfl := rootLabel l first
      exact ⟨(BitmapFrameAllocator.allocFrame_eq_some called).1,
        fun free => ((used l).mp (loop.free l free)).2 rfl⟩
    · exact ⟨((used l).mp free).1, taken⟩
  · exact ((used l).mp free).2 (rootLabel l label)
  · exact ((used frame).mp (loop.free frame free)).1

theorem Forked.maps {src : Space} (spec : Forked src frames st) {frame : ℕ}
    (maps : Maps st.parent frame ∨ Maps st.child frame) : Maps src frame := by
  rcases maps with ⟨page, pte, found, rfl⟩ | ⟨page, pte, found, rfl⟩
  · rw [spec.parent_lookup, Option.map_eq_some_iff] at found
    obtain ⟨old, before, rfl⟩ := found
    exact ⟨page, old, before, rfl⟩
  · obtain ⟨old, before, rfl⟩ := spec.child_lookup page pte found
    exact ⟨page, old, before, rfl⟩

/-- What a share does to the count of the frame. -/
def bump (count : ℕ) : ℕ :=
  if (count + 1) % 2 ^ 32 = 1 then ((count + 1) % 2 ^ 32 + 1) % 2 ^ 32 else (count + 1) % 2 ^ 32

/-- Short of overflow, a share counts one more mapping, and the first share counts two. -/
theorem bump_eq {count : ℕ} (room : count + 1 < 2 ^ 32) :
    bump count = if count = 0 then 2 else count + 1 := by
  rw [bump, mod_eq_of_lt room]
  split_ifs <;> omega

theorem sharePage_refs (page : Page) (pte : Pte) (frame : ℕ) : (sharePage page pte st).refs frame =
      if frame = pte.frame then bump (st.refs frame) else st.refs frame := by
  simp only [sharePage, refInc, bump]
  by_cases same : frame = pte.frame
  · subst same
    split_ifs <;> simp_all
  · split_ifs <;> simp_all

/-- A fork raises the count of every frame the parent maps, if it maps each once. -/
theorem foldl_sharePage_refs (shared : List (Page × Pte)) (st : ForkState)
    (distinct : (shared.map fun leaf => leaf.2.frame).Nodup) (frame : ℕ) :
    (shared.foldl (fun st (leaf : _ × Pte) => sharePage leaf.1 leaf.2 st) st).refs frame =
      if frame ∈ shared.map (fun leaf => leaf.2.frame) then bump (st.refs frame)
      else st.refs frame := by
  induction shared generalizing st with
  | nil => rfl
  | cons leaf rest ih =>
    obtain ⟨fresh, distinct⟩ := nodup_cons.mp distinct
    rw [foldl_cons, ih _ distinct, sharePage_refs]
    by_cases same : frame = leaf.2.frame
    · subst same
      simp [fresh]
    · simp only [map_cons, mem_cons, same, false_or, if_false]

end SmartOs.Memory
