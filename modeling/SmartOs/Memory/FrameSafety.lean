/-
# No frame is freed while it is mapped

`Ownership` is the view of memory in which the question is settled: which frames are
free, which hold the tables of a process and which a process maps. It is sound when no
used frame is free, no two processes share a table and no table is mapped as a page.
There are two ways to change it soundly: to grow, by taking free frames or sharing mapped
ones, and to give up frames that nobody uses any more.

Fork, write faults, stores and program loading grow. Exec and exit give up frames, but
they free every frame the process maps, whether or not another process maps it too: the
reference counts are not consulted. So mapped frames stay allocated in every run in which
exec and exit happen only to processes that share no frame, and not in general.
-/

import SmartOs.CS.Extents
import SmartOs.Memory.Kernel

namespace SmartOs.Memory

open SmartOs.CS SmartOs.Math Function Option RadixTree BitmapFrameAllocator

variable {image : List ImagePage} {s : Kernel}

/-! ## Ownership -/

/-- Which frames are free, and which ones each process uses for tables and for pages. -/
structure Ownership where
  free : ℕ → Prop
  table : ℕ → ℕ → Prop
  mapped : ℕ → ℕ → Prop

namespace Ownership

structure Sound (o : Ownership) : Prop where
  table_used : ∀ {pid frame}, o.table pid frame → ¬o.free frame
  mapped_used : ∀ {pid frame}, o.mapped pid frame → ¬o.free frame
  table_private : ∀ {p q frame}, o.table p frame → o.table q frame → p = q
  table_unmapped : ∀ {p q frame}, o.table p frame → ¬o.mapped q frame

variable {o o' : Ownership}

/-- One process takes free frames for its tables; mapped frames were mapped before or are
taken as well. -/
theorem Sound.grow (h : o.Sound) (pid : ℕ) (free : ∀ {frame}, o'.free frame → o.free frame)
    (table : ∀ {p frame}, o'.table p frame → o.table p frame ∨
      (p = pid ∧ o.free frame ∧ ¬o'.free frame ∧ ∀ q, ¬o'.mapped q frame))
    (mapped : ∀ {p frame}, o'.mapped p frame →
      (∃ q, o.mapped q frame) ∨ (o.free frame ∧ ¬o'.free frame)) : o'.Sound := by
  refine ⟨fun used => ?_, fun used => ?_, fun usedP usedQ => ?_, fun used overlap => ?_⟩
  · rcases table used with old | ⟨-, -, taken, -⟩
    · exact fun still => h.table_used old (free still)
    · exact taken
  · rcases mapped used with ⟨q, old⟩ | ⟨-, taken⟩
    · exact fun still => h.mapped_used old (free still)
    · exact taken
  · rcases table usedP with oldP | ⟨rfl, freeP, -, -⟩
    · rcases table usedQ with oldQ | ⟨-, freeQ, -, -⟩
      · exact h.table_private oldP oldQ
      · exact absurd freeQ (h.table_used oldP)
    · rcases table usedQ with oldQ | ⟨rfl, -, -, -⟩
      · exact absurd freeP (h.table_used oldQ)
      · rfl
  · rcases table used with old | ⟨-, -, -, unmapped⟩
    · rcases mapped overlap with ⟨q, shared⟩ | ⟨wasFree, -⟩
      · exact h.table_unmapped old shared
      · exact h.table_used old wasFree
    · exact unmapped _ overlap

/-- Frames are given up that nobody uses afterwards. -/
theorem Sound.release (h : o.Sound) (free : ∀ {frame}, o'.free frame → o.free frame ∨
      ((∀ p, ¬o'.table p frame) ∧ ∀ p, ¬o'.mapped p frame))
    (table : ∀ {p frame}, o'.table p frame → o.table p frame)
    (mapped : ∀ {p frame}, o'.mapped p frame → o.mapped p frame) : o'.Sound := by
  refine ⟨fun used still => ?_, fun used still => ?_, fun usedP usedQ =>
    h.table_private (table usedP) (table usedQ), fun used overlap =>
    h.table_unmapped (table used) (mapped overlap)⟩
  · rcases free still with before | ⟨unused, -⟩
    · exact h.table_used (table used) before
    · exact unused _ used
  · rcases free still with before | ⟨-, unused⟩
    · exact h.mapped_used (mapped used) before
    · exact unused _ used

end Ownership

/-! ## The ownership of a kernel state -/

variable {t : Kernel}

namespace Kernel

def HasTable (s : Kernel) (pid frame : ℕ) : Prop :=
  ∃ space, s.spaces pid = some space ∧ space.Labels frame

def MapsFrame (s : Kernel) (pid frame : ℕ) : Prop :=
  ∃ space, s.spaces pid = some space ∧ Maps space frame

def ownership (s : Kernel) : Ownership where
  free := s.frames.IsFree
  table := s.HasTable
  mapped := s.MapsFrame

/-- Page tables are set up properly: every table sits in an allocated frame of its own
that no process maps, and every mapped frame is allocated. -/
structure WellFormed (s : Kernel) : Prop where
  live_lt : ∀ {pid space}, s.spaces pid = some space → pid < s.nextPid
  owns : s.ownership.Sound
  apart : ∀ {pid space}, s.spaces pid = some space → space.RootApart

variable {s : Kernel} {pid : ℕ} {phys : Phys}

theorem spaces_withSpace (s : Kernel) (pid : ℕ) (space : Option Space) (phys : Phys) (p : ℕ) :
    (s.withSpace pid space phys).spaces p = if p = pid then space else s.spaces p := by
  simp [withSpace, update_apply]

variable {frame p : ℕ} {space : Option Space} {pml4 pml4' : Space}

theorem of_withSpace {has : Space → Prop}
    (h : ∃ pml4, (s.withSpace pid space phys).spaces p = some pml4 ∧ has pml4) :
    (p = pid ∧ ∃ pml4, space = some pml4 ∧ has pml4) ∨
      (p ≠ pid ∧ ∃ pml4, s.spaces p = some pml4 ∧ has pml4) := by
  obtain ⟨pml4, live, here⟩ := h
  rcases update_eq_some_iff.mp live with ⟨same, new⟩ | ⟨other, old⟩
  · exact .inl ⟨same, pml4, new, here⟩
  · exact .inr ⟨other, pml4, old, here⟩

/-- Changing the entry of one page changes the mapped frames by at most the new one. -/
theorem maps_of_modify {f : Pte → Pte} {page : Page} (maps : Maps (pml4.modify f page) frame) :
    Maps pml4 frame ∨ ∃ pte, pml4.lookup page = some pte ∧ (f pte).frame = frame := by
  obtain ⟨other, pte, found, rfl⟩ := maps
  rw [lookup_modify] at found
  split_ifs at found with same
  · subst same
    obtain ⟨old, before, rfl⟩ := map_eq_some_iff.mp found
    exact .inr ⟨old, before, rfl⟩
  · exact .inl ⟨other, pte, found, rfl⟩

theorem WellFormed.withData (h : s.WellFormed) (data : ℕ → ℕ → UInt8) :
    { s with data }.WellFormed :=
  ⟨h.live_lt, h.owns, h.apart⟩

theorem spaces_fork_cases {st : ForkState} {space : Space}
    (alive : update (update s.spaces pid (some st.parent)) s.nextPid
      (some st.child) p = some space) :
    (p = s.nextPid ∧ space = st.child) ∨ (p = pid ∧ space = st.parent) ∨
      (p ≠ pid ∧ s.spaces p = some space) := by
  rcases update_eq_some_iff.mp alive with ⟨new, child⟩ | ⟨-, alive⟩
  · exact .inl ⟨new, (some.inj child).symm⟩
  rcases update_eq_some_iff.mp alive with ⟨same, parent⟩ | other
  · exact .inr (.inl ⟨same, (some.inj parent).symm⟩)
  · exact .inr (.inr other)

section Steps

variable (h : s.WellFormed) (live : s.spaces pid = some pml4)

include h live

theorem WellFormed.of_owns (owns : (s.withSpace pid space phys).ownership.Sound)
    (apart : ∀ left, space = some left → left.RootApart) :
    (s.withSpace pid space phys).WellFormed := by
  refine ⟨fun {p left} alive => ?_, owns, fun {p left} alive => ?_⟩
  · rcases update_eq_some_iff.mp alive with ⟨rfl, -⟩ | ⟨-, old⟩
    · exact h.live_lt live
    · exact h.live_lt old
  · rcases update_eq_some_iff.mp alive with ⟨-, new⟩ | ⟨-, old⟩
    · exact apart left new
    · exact h.apart old

/-- A process's space may be replaced by one that adds only frames that were free. -/
theorem WellFormed.replace (free : ∀ frame, phys.frames.IsFree frame → s.frames.IsFree frame)
    (labels : ∀ frame, pml4'.Labels frame → pml4.Labels frame ∨
      (s.frames.IsFree frame ∧ ¬phys.frames.IsFree frame ∧ ¬Maps pml4' frame))
    (maps : ∀ frame, Maps pml4' frame → Maps pml4 frame ∨
      (s.frames.IsFree frame ∧ ¬phys.frames.IsFree frame)) (apart : pml4'.RootApart) :
    (s.withSpace pid (some pml4') phys).WellFormed := by
  refine h.of_owns live (h.owns.grow pid (free _) (fun {p frame} used => ?_)
    fun {p frame} used => ?_) fun left same => some.inj same ▸ apart
  · rcases of_withSpace used with ⟨rfl, _, ⟨rfl⟩, label⟩ | ⟨-, old⟩
    · refine (labels frame label).imp (fun old => ⟨pml4, live, old⟩)
        fun ⟨wasFree, taken, unmapped⟩ => ⟨rfl, wasFree, taken, fun q overlap => ?_⟩
      -- a frame that was free was mapped by nobody
      rcases of_withSpace overlap with ⟨-, _, ⟨rfl⟩, here⟩ | ⟨-, there⟩
      · exact unmapped here
      · exact h.owns.mapped_used there wasFree
    · exact .inl old
  · rcases of_withSpace used with ⟨rfl, _, ⟨rfl⟩, here⟩ | ⟨-, there⟩
    · exact (maps frame here).imp_left fun old => ⟨p, pml4, live, old⟩
    · exact .inl ⟨p, there⟩

/-! ## Events that only take frames -/

theorem WellFormed.fork (forked : s.fork pid pml4 = some t) : t.WellFormed := by
  obtain ⟨st, called, rfl⟩ := map_eq_some_iff.mp forked
  have spec := cowFork_forked called
  -- no frame is mapped that was not mapped before
  have mapped {p frame : ℕ} (used : ∃ space, update (update s.spaces pid
      (some st.parent)) s.nextPid (some st.child) p = some space ∧ Maps space frame) :
      ∃ q, s.MapsFrame q frame := by
    obtain ⟨space, alive, maps⟩ := used
    rcases spaces_fork_cases alive with ⟨-, rfl⟩ | ⟨-, rfl⟩ | ⟨-, old⟩
    · exact ⟨pid, pml4, live, spec.maps (.inr maps)⟩
    · exact ⟨pid, pml4, live, spec.maps (.inl maps)⟩
    · exact ⟨p, space, old, maps⟩
  refine ⟨fun {p space} alive => ?_, h.owns.grow s.nextPid (spec.free _) (fun {p frame} used => ?_)
    (fun used => .inl (mapped used)), fun {p space} alive => ?_⟩
  · rcases spaces_fork_cases alive with ⟨rfl, -⟩ | ⟨rfl, -⟩ | ⟨-, old⟩
    · exact Nat.lt_succ_self _
    · exact Nat.lt_succ_of_lt (h.live_lt live)
    · exact Nat.lt_succ_of_lt (h.live_lt old)
  · obtain ⟨space, alive, label⟩ := used
    rcases spaces_fork_cases alive with ⟨rfl, rfl⟩ | ⟨rfl, rfl⟩ | ⟨-, old⟩
    · obtain ⟨wasFree, taken⟩ := spec.child_labels frame label
      refine .inr ⟨rfl, wasFree, taken, fun q used => ?_⟩
      obtain ⟨q, before⟩ := mapped used
      exact h.owns.mapped_used before wasFree
    · exact .inl ⟨pml4, live, (spec.parent_labels frame).mp label⟩
    · exact .inl ⟨space, old, label⟩
  · rcases spaces_fork_cases alive with ⟨-, rfl⟩ | ⟨-, rfl⟩ | ⟨-, old⟩
    · exact spec.child_apart
    · exact spec.parent_apart (h.apart live)
    · exact h.apart old

theorem WellFormed.cowFault (addr : ℕ) : (s.cowFault pid pml4 addr).WellFormed := by
  unfold Kernel.cowFault
  split_ifs with kernelHalf
  · exact h
  cases handled : handleCowFault pml4 addr s.toPhys with
  | none => exact h
  | some result =>
    obtain ⟨pml4', phys⟩ := result
    obtain ⟨pte, found, -, ⟨-, rfl, rfl⟩ | ⟨-, newFrame, frames, called, rfl, rfl⟩⟩ :=
      handleCowFault_eq_some handled
    · refine h.replace live (fun _ => id) (fun frame label => .inl ?_) (fun frame maps => .inl ?_)
        ((h.apart live).modify _ _)
      · exact (labels_modify).mp label
      rcases maps_of_modify maps with old | ⟨old, found, rfl⟩
      · exact old
      · exact ⟨_, old, found, rfl⟩
    · have used := isFree_allocFrame called
      refine h.replace live (fun frame free => ((used frame).mp free).1)
        (fun frame label => .inl ?_) (fun frame maps => ?_) ((h.apart live).modify _ _)
      · exact (labels_modify).mp label
      rcases maps_of_modify maps with old | ⟨-, -, rfl⟩
      · exact .inl old
      · exact .inr ⟨(allocFrame_eq_some called).1, fun free => ((used newFrame).mp free).2 rfl⟩

theorem WellFormed.mapImagePage {image : ImagePage}
    (mapped : mapImagePage image pml4 s.toPhys = some (pml4', phys)) :
    (s.withSpace pid (some pml4') phys).WellFormed := by
  -- the frame of the page is drawn first, so none of the new tables is in it
  obtain ⟨frame, frames, called, inserted, -⟩ := mapImagePage_eq_some mapped
  have used := isFree_allocFrame called
  have fresh := (allocFrame_eq_some called).1
  have spec := insert_spec frameSupply image.flags.writable ⟨frame, image.flags⟩ pml4 image.page
    frames
  have apart := (h.apart live).insert frameSupply
    (fun l label free => h.owns.table_used ⟨pml4, live, label⟩ ((used l).mp free).1)
    image.flags.writable ⟨frame, image.flags⟩ image.page
  rw [← mapPage, inserted] at spec apart
  have maps {f : ℕ} (maps : Maps pml4' f) : Maps pml4 f ∨ f = frame := by
    obtain ⟨page, pte, found, rfl⟩ := maps
    rw [spec.lookup_eq] at found
    split_ifs at found with here
    · cases found
      exact .inr rfl
    · exact .inl ⟨page, pte, found, rfl⟩
  refine h.replace live (fun f free => ((used f).mp (spec.available f free)).1)
    (fun f label => ?_) (fun f mapped => ?_) apart
  · rcases spec.labels_new f label with old | ⟨free, taken⟩
    · exact .inl old
    obtain ⟨wasFree, other⟩ := (used f).mp free
    refine .inr ⟨wasFree, taken, fun mapped => ?_⟩
    rcases maps mapped with old | same
    · exact h.owns.mapped_used ⟨pml4, live, old⟩ wasFree
    · exact other same
  · rcases maps mapped with old | rfl
    · exact .inl old
    · exact .inr ⟨fresh, fun free => ((used f).mp (spec.available f free)).2 rfl⟩

theorem WellFormed.loadImage (loaded : loadImage image pml4 s.toPhys = some (pml4', phys)) :
    (s.withSpace pid (some pml4') phys).WellFormed := by
  induction image generalizing s pml4 with
  | nil =>
    cases loaded
    exact h.replace live (fun _ => id) (fun _ => .inl) (fun _ => .inl) (h.apart live)
  | cons first rest ih =>
    obtain ⟨⟨middle, phys'⟩, mapped, loaded⟩ := bind_eq_some_iff.mp loaded
    have again := ih (h.mapImagePage live mapped) (update_self ..) loaded
    simpa [withSpace] using again

/-! ## Events that give up frames -/

variable (unshared : ∀ frame, Maps pml4 frame → ∀ q, q ≠ pid → ¬s.MapsFrame q frame)

include unshared

/-- A process may give up its frames if it maps none of them together with others. -/
theorem WellFormed.release
    (free : ∀ frame, phys.frames.IsFree frame → s.frames.IsFree frame ∨ (Occupies pml4 frame ∧ ∀
      left, space = some left → ¬left.Labels frame))
    (labels : ∀ left frame, space = some left → left.Labels frame → pml4.Labels frame)
    (maps : ∀ left frame, space = some left → ¬Maps left frame)
    (apart : ∀ left, space = some left → left.RootApart) :
    (s.withSpace pid space phys).WellFormed := by
  refine h.of_owns live (h.owns.release (fun {frame} freed => ?_)
    (fun {p frame} used => ?_) fun {p frame} used => ?_) apart
  · refine (free frame freed).imp_right fun ⟨occupied, kept⟩ => ⟨fun p used => ?_, fun p used => ?_⟩
    · -- a frame given up held a table or a page of the process, and nobody else uses either
      rcases of_withSpace used with ⟨-, left, same, label⟩ | ⟨other, table⟩
      · exact kept left same label
      rcases occupied with label | mapped
      · exact other (h.owns.table_private table ⟨pml4, live, label⟩)
      · exact h.owns.table_unmapped table ⟨pml4, live, mapped⟩
    · rcases of_withSpace used with ⟨-, left, same, mapped⟩ | ⟨other, mapped⟩
      · exact maps left frame same mapped
      rcases occupied with label | here
      · exact h.owns.table_unmapped ⟨pml4, live, label⟩ mapped
      · exact unshared frame here p other mapped
  · rcases of_withSpace used with ⟨rfl, left, same, label⟩ | ⟨-, table⟩
    · exact ⟨pml4, live, labels left frame same label⟩
    · exact table
  · rcases of_withSpace used with ⟨rfl, left, same, mapped⟩ | ⟨-, mapped⟩
    · exact absurd mapped (maps left frame same)
    · exact mapped

theorem WellFormed.exit : (s.exit pid pml4).WellFormed := by
  refine h.release live unshared (fun frame freed => ?_) (fun left _ same => by cases same)
    (fun left _ same => by cases same) fun left same => by cases same
  exact (isFree_of_freeEntry pml4 s.frames freed).imp_right fun occupied =>
    ⟨occupied, fun left same => by cases same⟩

theorem WellFormed.freeUserPagesOnly : (s.withSpace pid (some (freeUserPagesOnly pml4 s.frames).1)
      ⟨(freeUserPagesOnly pml4 s.frames).2, s.refs, s.data⟩).WellFormed := by
  cases pml4 with
  | absent =>
    exact h.replace live (fun _ => id) (fun _ => .inl) (fun _ => .inl) trivial
  | node root gate entries =>
    rw [freeUserPagesOnly]
    refine h.release live unshared (fun frame freed => ?_) ?_ ?_ ?_
    · dsimp only at freed
      rcases isFree_of_freePageTableLevel (fun i frames => isFree_of_freeEntry (entries i) frames)
        s.frames freed with before | ⟨i, occupied⟩
      · exact .inl before
      refine .inr ⟨occupied.of_entry, ?_⟩
      rintro _ ⟨rfl⟩ (rfl | ⟨_, impossible⟩)
      -- the PML4 itself is kept, and it is none of the frames below it
      · rcases occupied with label | ⟨page, pte, found, same⟩
        · exact h.apart live i label
        · exact h.owns.table_unmapped ⟨_, live, .inl rfl⟩
            ⟨_, live, .cons i page, pte, found, same⟩
      · exact impossible
    · rintro _ frame ⟨rfl⟩ (rfl | ⟨_, impossible⟩)
      · exact .inl rfl
      · exact impossible.elim
    · rintro _ frame ⟨rfl⟩ ⟨page, pte, found, -⟩
      cases page
      cases found
    · rintro _ ⟨rfl⟩
      exact fun _ => id

theorem WellFormed.exec (replaced : s.exec pid pml4 image = some t) : t.WellFormed := by
  rw [Kernel.exec, map_eq_some_iff] at replaced
  obtain ⟨⟨pml4', phys⟩, loaded, rfl⟩ := replaced
  have emptied := h.freeUserPagesOnly live unshared
  have again := emptied.loadImage (update_self ..) loaded
  simpa [withSpace] using again

end Steps

end Kernel

/-! ## Runs -/

/-- Exec and exit happen only to a process none of whose frames another process maps. -/
def Kernel.Unshared (s : Kernel) : Event → Prop
  | .exec pid _ | .exit pid => ∀ frame, s.MapsFrame pid frame → ∀ q, q ≠ pid → ¬s.MapsFrame q frame
  | _ => True

theorem Kernel.WellFormed.step {e : Event} (h : s.WellFormed) (unshared : s.Unshared e)
    (step : s.Step e t) : t.WellFormed := by
  obtain ⟨pml4, live, applied⟩ := bind_eq_some_iff.mp step
  cases e with
  | fork pid => exact h.fork live applied
  | cowFault pid addr =>
    cases applied
    exact h.cowFault live addr
  | store pid addr byte =>
    cases applied
    unfold store
    cases writablePte pml4 addr with
    | none => exact h
    | some pte => exact h.withData _
  | copyToUser pid dstVaddr src =>
    cases applied
    exact h.withData _
  | exec pid image =>
    exact h.exec live (fun frame maps => unshared frame ⟨pml4, live, maps⟩) applied
  | exit pid =>
    cases applied
    exact h.exit live fun frame maps => unshared frame ⟨pml4, live, maps⟩

/-- Every frame that a live process maps is allocated, so `alloc_frame` never returns one. -/
def Kernel.MappedAllocated (s : Kernel) : Prop :=
  (∀ pid frame, s.MapsFrame pid frame → ¬s.frames.IsFree frame) ∧
    ∀ frame frames, s.frames.allocFrame = (some frame, frames) → ∀ pid, ¬s.MapsFrame pid frame

theorem Kernel.WellFormed.mappedAllocated (h : s.WellFormed) : s.MappedAllocated :=
  ⟨fun _ _ maps => h.owns.mapped_used maps, fun _ _ called _ maps =>
    h.owns.mapped_used maps (allocFrame_eq_some called).1⟩

/-- Every user frame is mapped by one address space only. -/
def Kernel.Exclusive (s : Kernel) : Prop :=
  ∀ frame p q, s.MapsFrame p frame → s.MapsFrame q frame → p = q

/-- One process with an empty user half, its PML4 in frame `1`; frames `16` to `31` free. -/
def bootKernel : Kernel where
  frames := ⟨[0xFFFF0000#64], 0, 32, 16, Nat.zero_eq⟩
  refs := fun _ => 0
  data := fun _ _ => 0
  spaces := fun pid => if pid = 1 then some (.node 1 true fun _ => .absent) else none
  nextPid := 2

/-- A program of one writable page of zeros at `0x1000`. -/
def tinyImage : List ImagePage := [⟨pageOf 0x1000, ⟨true, true, false, false⟩, fun _ => 0⟩]

theorem bootKernel_mapsFrame {pid frame : ℕ} : ¬bootKernel.MapsFrame pid frame := by
  rintro ⟨space, live, page, pte, found, -⟩
  simp only [bootKernel] at live
  split_ifs at live
  cases live
  cases page
  cases found

theorem bootKernel_wellFormed : bootKernel.WellFormed := by
  have table {pid frame : ℕ} (used : bootKernel.HasTable pid frame) : pid = 1 ∧ frame = 1 := by
    obtain ⟨space, live, label⟩ := used
    simp only [bootKernel] at live
    split_ifs at live with first
    cases live
    rcases label with rfl | ⟨_, impossible⟩
    · exact ⟨first, rfl⟩
    · exact impossible.elim
  refine ⟨fun {pid space} live => ?_, ⟨fun used => ?_, fun used => absurd used bootKernel_mapsFrame,
    fun usedP usedQ => (table usedP).1.trans (table usedQ).1.symm,
    fun _ => bootKernel_mapsFrame⟩, fun {pid space} live => ?_⟩
  · simp only [bootKernel] at live ⊢
    split_ifs at live with first
    omega
  · rw [(table used).2]
    change ¬bootKernel.frames.IsFree 1
    decide +kernel
  · simp only [bootKernel] at live
    split_ifs at live
    cases live
    exact fun _ => id

end SmartOs.Memory
