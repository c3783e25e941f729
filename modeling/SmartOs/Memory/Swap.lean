/-
# Swap and files on one disk

`memory/swap.rs` writes pages to slots of eight sectors on the VirtIO disk: a counter that
starts at sector 1024 gives new slots, and freed slots are used again first. The file system of
`drivers/diskfs.rs` is on the same disk when there is no other drive, and takes all sectors of it.

Neither of the two knows of the other. The sectors of the swapped pages are apart from those of
the files in every run exactly when the file system ends at sector 1024 or before, or when the
disk is too small for the first slot.
-/

import SmartOs.Drivers.DiskFsOperations

namespace SmartOs.Memory

open CS Math Drivers List

/-! ## The swap table -/

structure SwapSlot where
  sectorStart : ℕ
  sectorCount : ℕ

def sectorsPerPage : ℕ := 8

structure SwapKey where
  pid : ℕ
  vpage : ℕ
  deriving DecidableEq

def SwapKey.of (pid vaddr : ℕ) : SwapKey := ⟨pid, vaddr >>> 12⟩

/-- The statics of the module. The last slot that was freed is the head of `freeSlots`. -/
structure Swap where
  table : SwapKey → Option SwapSlot
  sectorNext : ℕ
  freeSlots : List SwapSlot
  available : Bool

namespace Swap

/-- Nothing is swapped out. -/
def initial (available : Bool) : Swap := ⟨fun _ => none, 1024, [], available⟩

/-- The slot that was freed last, or eight new sectors. There is always a slot: whether it is on
the disk shows when it is written. -/
def allocSwapSlot (swap : Swap) : Option SwapSlot × Swap :=
  match swap.freeSlots with
  | slot :: rest => (some slot, { swap with freeSlots := rest })
  | [] => (some ⟨swap.sectorNext, sectorsPerPage⟩,
      { swap with sectorNext := (swap.sectorNext + sectorsPerPage) % 2 ^ 64 })

def freeSwapSlot (swap : Swap) (slot : SwapSlot) : Swap :=
  { swap with freeSlots := slot :: swap.freeSlots }

end Swap

abbrev PageData := Bytes 4096

section Operations

variable {δ : Type} (dev : Device δ)

/-- The eight sectors, up to the first that fails. -/
def writePage (slot : SwapSlot) (data : PageData) : EStateM String δ Unit :=
  (range 8).forM fun i =>
    dev.writeBlock ((slot.sectorStart + i) % 2 ^ 64) (sectorOf data.val i)

def readPage (slot : SwapSlot) : EStateM String δ (List Sector) :=
  (range 8).mapM fun i => dev.readBlock ((slot.sectorStart + i) % 2 ^ 64)

/-- `data` is what is in the frame, which is given back after a success. -/
def swapOut (pid vaddr : ℕ) (data : PageData) (swap : Swap) (disk : δ) : Bool × Swap × δ :=
  if !swap.available then (false, swap, disk)
  else
    match swap.allocSwapSlot with
    | (none, swap) => (false, swap, disk)
    | (some slot, swap) =>
      match writePage dev slot data disk with
      | .error _ disk => (false, swap.freeSwapSlot slot, disk)
      | .ok _ disk =>
        (true, { swap with table := Function.update swap.table (.of pid vaddr) (some slot) }, disk)

/-- The contents of the new frame. `frame` says whether the frame allocator has one. If it has
none, the slot is neither in the table nor free. -/
def swapIn (pid vaddr : ℕ) (frame : Bool) (swap : Swap) (disk : δ) :
    Option (List Sector) × Swap × δ :=
  match swap.table (.of pid vaddr) with
  | none => (none, swap, disk)
  | some slot =>
    let swap := { swap with table := Function.update swap.table (.of pid vaddr) none }
    if !frame then (none, swap, disk)
    else
      match readPage dev slot disk with
      | .error _ disk => (none, swap.freeSwapSlot slot, disk)
      | .ok sectors disk => (some sectors, swap.freeSwapSlot slot, disk)

/-! ## Both on one disk -/

/-- The file system and the swap table, on one disk. -/
structure SharedDisk (δ : Type) where
  fs : DiskFs
  swap : Swap
  disk : δ

inductive DiskCall where
  | swapOut (pid vaddr : ℕ) (data : PageData)
  | swapIn (pid vaddr : ℕ) (frame : Bool)
  | writeFile (name : String) (data : List UInt8)
  | deleteFile (name : String)

variable (engine : EncryptionEngine)

/-- An operation of the file system, whatever its outcome. -/
def SharedDisk.onFiles (x : DiskM δ Unit) (m : SharedDisk δ) : SharedDisk δ :=
  let s := finalState (x ⟨m.fs, ⟨m.disk, []⟩⟩)
  { m with fs := s.fs, disk := s.drives.first }

def SharedDisk.step (m : SharedDisk δ) : DiskCall → SharedDisk δ
  | .swapOut pid vaddr data =>
    let (_, swap, disk) := swapOut dev pid vaddr data m.swap m.disk
    { m with swap, disk }
  | .swapIn pid vaddr frame =>
    let (_, swap, disk) := swapIn dev pid vaddr frame m.swap m.disk
    { m with swap, disk }
  | .writeFile name data => m.onFiles (writeFile dev engine name data)
  | .deleteFile name => m.onFiles (deleteFile dev engine name)

def SharedDisk.run (m : SharedDisk δ) (calls : List DiskCall) : SharedDisk δ :=
  calls.foldl (SharedDisk.step dev engine) m

end Operations

/-! ## Sectors -/

def SwapSlot.extent (slot : SwapSlot) : Set ℕ :=
  Set.Ico slot.sectorStart (slot.sectorStart + slot.sectorCount)

/-- The sectors of the pages that are swapped out. -/
def Swap.sectors (swap : Swap) : Set ℕ :=
  { lba | ∃ key slot, swap.table key = some slot ∧ lba ∈ slot.extent }

/-- The metadata and the sectors of the files. -/
def fileSectors (fs : DiskFs) : Set ℕ :=
  Set.Iio dataStart ∪ { lba | ∃ slot e, fs.table slot = some e ∧ lba ∈ e.extent }

/-- No sector is shared, and the swapped pages are on the disk. -/
structure SharedDisk.Apart {δ : Type} (capacity : ℕ) (m : SharedDisk δ) : Prop where
  disjoint : Disjoint m.swap.sectors (fileSectors m.fs)
  inside : m.swap.sectors ⊆ Set.Iio capacity

/-- The driver refuses what is not on the disk. Other writes may fail as well. -/
def Refuses {δ : Type} (dev : Device δ) (capacity : ℕ) : Prop :=
  ∀ lba buf disk, capacity ≤ lba → ∀ disk', dev.writeBlock lba buf disk ≠ .ok () disk'

/-- The files of a file system are in its data area, as they are after `format`. -/
def Placed (fs : DiskFs) : Prop :=
  ∀ ⦃slot e⦄, fs.table slot = some e → e.extent ⊆ Set.Ico dataStart fs.totalSectors

/-- In every run on a disk of this capacity, with a file system of this size, swap and files stay
apart. -/
def NeverShare (capacity : UInt64) (total : ℕ) : Prop :=
  ∀ (δ : Type) (dev : Device δ), Refuses dev capacity.toNat →
    ∀ (engine : EncryptionEngine) (m : SharedDisk δ) (available : Bool),
      m.swap = .initial available → Placed m.fs → m.fs.totalSectors = total →
      ∀ calls : List DiskCall, (m.run dev engine calls).Apart capacity.toNat

/-! ## What the file system does in a run -/

section Files

variable {δ : Type} {dev : Device δ} {engine : EncryptionEngine}

/-- The files are in the data area, which ends at this sector. -/
structure PlacedIn (total : ℕ) (fs : DiskFs) : Prop where
  placed : Placed fs
  total : fs.totalSectors = total

namespace PlacedIn

variable {total slot : ℕ} {fs : DiskFs} (ok : PlacedIn total fs) (name : String)
include ok

/-- An entry is set, in the data area unless it is not active. -/
theorem setEntry (inside : slot < maxFiles) {e : FileEntry}
    (within : e.isActive → e.extent ⊆ Set.Ico dataStart fs.totalSectors) :
    PlacedIn total (fs.setEntry slot e) := by
  refine ⟨fun other f found => ?_, ok.total⟩
  rw [DiskFs.table_setEntry _ inside] at found
  rcases update_eq_some_iff.mp found with ⟨-, new⟩ | ⟨-, old⟩
  · split_ifs at new with active
    cases new
    exact within active
  · exact ok.placed old

theorem gone (search : fs.entries.findIdx? (·.named name) = some slot) :
    PlacedIn total (fs.gone slot) := by
  obtain ⟨e, found, -⟩ := table_of_findIdx search
  exact setEntry (⟨ok.placed, ok.total⟩ : PlacedIn total (fs.markFree _ _)) (DiskFs.slot_lt found)
    fun active => by cases active

variable (data : List UInt8)

theorem createPlan : ∀ stage ∈ (createPlan fs name data).stages, PlacedIn total stage.memory := by
  unfold Drivers.createPlan
  cases search : fs.freeSlot with
  | none => exact fun _ mem => nomatch mem
  | some slot =>
    cases place : fs.place data.length with
    | none => exact fun _ mem => nomatch mem
    | some start =>
      obtain ⟨low, high⟩ := place_bounds place
      rw [le_min_iff] at high
      refine forall_mem_cons.mpr ⟨⟨ok.placed, ok.total⟩, forall_mem_singleton.mpr ?_⟩
      refine setEntry (⟨ok.placed, ok.total⟩ : PlacedIn total (fs.markUsed _ _))
        (vacant_of_freeSlot search).1 fun _ => ?_
      rw [extent_fill _ _ high.2]
      · exact Set.Ico_subset_Ico low high.1
      · exact (le_sectorsNeeded _).trans (Nat.mul_le_mul_right _ (le_max_left _ _))

theorem writePlan : ∀ stage ∈ (writePlan fs name data).stages, PlacedIn total stage.memory := by
  unfold Drivers.writePlan
  cases search : fs.entries.findIdx? (·.named name) with
  | none => exact ok.createPlan name data
  | some slot =>
    dsimp only
    split
    · exact fun _ mem => nomatch mem
    · have gone := ok.gone name search
      exact forall_mem_cons.mpr ⟨gone, gone.createPlan name data⟩

end PlacedIn

variable {total : ℕ} {s : Mounted δ} (ok : PlacedIn total s.fs) (name : String)
include ok

theorem placedIn_writeFile (data : List UInt8) :
    PlacedIn total (finalState (writeFile dev engine name data s)).fs := by
  rw [writeFile_eq]
  exact Plan.run_invariant dev engine (ok.writePlan name data) ok

theorem placedIn_deleteFile : PlacedIn total (finalState (deleteFile dev engine name s)).fs := by
  cases search : s.fs.entries.findIdx? (·.named name) with
  | none =>
    rw [deleteFile, get_bind_apply, search, orThrow_none_bind]
    exact ok
  | some slot =>
    rw [deleteFile_eq dev engine search]
    split
    · exact ok
    · rw [finalState_onDrives]
      exact ok.gone name search

end Files

/-! ## What swap does in a run -/

section Slots

variable {δ : Type} {dev : Device δ} {capacity : ℕ} {swap : Swap} {disk : δ}

/-- The slot is past the sectors that the counter starts at, and its sectors do not wrap around. -/
structure SwapSlot.Ok (slot : SwapSlot) : Prop where
  count : slot.sectorCount = 8
  start : 1024 ≤ slot.sectorStart
  bound : slot.sectorStart + 8 ≤ 2 ^ 64

/-- All slots are well formed, and those with pages are on the disk. The counter stops before it
wraps around: the first slot that is not on the disk stays free, because it can never be written. -/
structure SwapOk (capacity : ℕ) (swap : Swap) : Prop where
  table : ∀ ⦃key slot⦄, swap.table key = some slot → slot.Ok ∧ slot.sectorStart + 8 ≤ capacity
  free : ∀ slot ∈ swap.freeSlots, slot.Ok
  next : (1024 ≤ swap.sectorNext ∧ swap.sectorNext + 8 ≤ 2 ^ 64 ∧ 8 ∣ swap.sectorNext) ∨
    ∃ slot ∈ swap.freeSlots, capacity < slot.sectorStart + 8

theorem swapOk_initial (available : Bool) : SwapOk capacity (.initial available) where
  table := nofun
  free := nofun
  next := .inl ⟨le_rfl, Nat.le_of_ble_eq_true rfl, 128, rfl⟩

variable {slot : SwapSlot}

theorem le_of_writePage (refuses : Refuses dev capacity) (ok : slot.Ok) {data : PageData}
    {disk' : δ} (written : writePage dev slot data disk = .ok () disk') :
    slot.sectorStart + 8 ≤ capacity := by
  by_contra outside
  have bound := ok.bound
  obtain ⟨t, t', last⟩ := ok_of_forM_eq_ok written (mem_range.mpr (by decide : 7 < 8))
  refine refuses _ _ t ?_ t' last
  omega

/-- The counter moves on: it is still below the bound unless its slot is not on the disk. -/
theorem next_of_le (small : capacity < 2 ^ 64) {next : ℕ} (start : 1024 ≤ next) (slots : 8 ∣ next)
    (inside : next + 8 ≤ capacity) : 1024 ≤ (next + 8) % 2 ^ 64 ∧
      (next + 8) % 2 ^ 64 + 8 ≤ 2 ^ 64 ∧ 8 ∣ (next + 8) % 2 ^ 64 := by
  omega

/-- The slot that is given out may be put back; it may be kept if it is on the disk. -/
theorem SwapOk.allocSwapSlot (small : capacity < 2 ^ 64) (ok : SwapOk capacity swap) {swap' : Swap}
    (allocated : swap.allocSwapSlot = (some slot, swap')) :
    slot.Ok ∧ (slot.sectorStart + 8 ≤ capacity → SwapOk capacity swap') ∧
      SwapOk capacity (swap'.freeSwapSlot slot) := by
  unfold Swap.allocSwapSlot at allocated
  cases slots : swap.freeSlots with
  | nil =>
    -- no free slot, so none that is off the disk, and the counter is below its bound
    have next : 1024 ≤ swap.sectorNext ∧ swap.sectorNext + 8 ≤ 2 ^ 64 ∧ 8 ∣ swap.sectorNext :=
      ok.next.resolve_right (by rw [slots]; rintro ⟨_, mem, -⟩; cases mem)
    rw [slots] at allocated
    cases allocated
    have fresh : SwapSlot.Ok ⟨swap.sectorNext, sectorsPerPage⟩ := ⟨rfl, next.1, next.2.1⟩
    refine ⟨fresh, fun inside => ⟨ok.table, nofun, .inl ?_⟩, ok.table,
      forall_mem_cons.mpr ⟨fresh, nofun⟩, ?_⟩
    · exact next_of_le small next.1 next.2.2 inside
    rcases lt_or_ge capacity (swap.sectorNext + 8) with outside | inside
    · exact .inr ⟨_, mem_cons_self, outside⟩
    · exact .inl (next_of_le small next.1 next.2.2 inside)
  | cons first rest =>
    have free := ok.free
    have next := ok.next
    rw [slots] at allocated free next
    cases allocated
    refine ⟨free slot mem_cons_self, fun inside => ⟨ok.table, ?_, ?_⟩, ok.table, free, next⟩
    · exact fun other mem => free other (mem_cons_of_mem _ mem)
    refine next.imp_right ?_
    rintro ⟨other, mem, outside⟩
    rcases mem_cons.mp mem with rfl | mem
    · omega
    · exact ⟨other, mem, outside⟩

theorem SwapOk.setTable (ok : SwapOk capacity swap) (key : SwapKey) {value : Option SwapSlot}
    (good : ∀ slot, value = some slot → slot.Ok ∧ slot.sectorStart + 8 ≤ capacity) :
    SwapOk capacity { swap with table := Function.update swap.table key value } := by
  refine ⟨fun other slot found => ?_, ok.free, ok.next⟩
  rcases update_eq_some_iff.mp found with ⟨-, new⟩ | ⟨-, old⟩
  · exact good slot new
  · exact ok.table old

theorem SwapOk.freeSwapSlot (ok : SwapOk capacity swap) (slotOk : slot.Ok) :
    SwapOk capacity (swap.freeSwapSlot slot) := by
  refine ⟨ok.table, forall_mem_cons.mpr ⟨slotOk, ok.free⟩, ?_⟩
  exact ok.next.imp_right fun ⟨other, mem, outside⟩ =>
    ⟨other, mem_cons_of_mem _ mem, outside⟩

theorem SwapOk.swapOut (refuses : Refuses dev capacity) (small : capacity < 2 ^ 64)
    (ok : SwapOk capacity swap) (pid vaddr : ℕ) (data : PageData) :
    SwapOk capacity (swapOut dev pid vaddr data swap disk).2.1 := by
  unfold Memory.swapOut
  split_ifs
  · exact ok
  split
  next swap' allocated =>
    -- there is always a slot
    unfold Swap.allocSwapSlot at allocated
    split at allocated <;> cases allocated
  next slot swap' allocated =>
    obtain ⟨slotOk, kept, freed⟩ := ok.allocSwapSlot small allocated
    split
    next => exact freed
    next written =>
      have inside := le_of_writePage refuses slotOk written
      refine (kept inside).setTable _ fun other same => ?_
      cases same
      exact ⟨slotOk, inside⟩

theorem SwapOk.swapIn (ok : SwapOk capacity swap) (pid vaddr : ℕ) (frame : Bool) :
    SwapOk capacity (swapIn dev pid vaddr frame swap disk).2.1 := by
  unfold Memory.swapIn
  cases found : swap.table (.of pid vaddr) with
  | none => exact ok
  | some slot =>
    have removed := ok.setTable (.of pid vaddr)
      (fun _ missing => nomatch missing : ∀ _, none = _ → _)
    have freed := removed.freeSwapSlot (ok.table found).1
    dsimp only
    split_ifs
    · exact removed
    split
    · exact freed
    · exact freed

end Slots

/-! ## Runs -/

section Runs

variable {δ : Type} {dev : Device δ} {engine : EncryptionEngine} {capacity : ℕ}

/-- What holds in every run. -/
structure SharedDisk.Ok (capacity total : ℕ) (m : SharedDisk δ) : Prop where
  swap : SwapOk capacity m.swap
  placed : Placed m.fs
  total : m.fs.totalSectors = total

variable {m : SharedDisk δ}

theorem SharedDisk.Ok.onFiles {total : ℕ} (ok : m.Ok capacity total) {x : DiskM δ Unit}
    (stays : PlacedIn total (finalState (x ⟨m.fs, ⟨m.disk, []⟩⟩)).fs) :
    (m.onFiles x).Ok capacity total :=
  ⟨ok.swap, stays.placed, stays.total⟩

section

variable (refuses : Refuses dev capacity) (small : capacity < 2 ^ 64) {total : ℕ}
  (ok : m.Ok capacity total)

include refuses small ok

theorem SharedDisk.Ok.step (call : DiskCall) : (m.step dev engine call).Ok capacity total := by
  cases call with
  | swapOut pid vaddr data =>
    exact ⟨ok.swap.swapOut refuses small pid vaddr data, ok.placed, ok.total⟩
  | swapIn pid vaddr frame => exact ⟨ok.swap.swapIn pid vaddr frame, ok.placed, ok.total⟩
  | writeFile name data =>
    exact ok.onFiles (placedIn_writeFile (s := ⟨m.fs, _⟩) ⟨ok.placed, ok.total⟩ name data)
  | deleteFile name =>
    exact ok.onFiles (placedIn_deleteFile (s := ⟨m.fs, _⟩) ⟨ok.placed, ok.total⟩ name)

theorem SharedDisk.Ok.run (calls : List DiskCall) : (m.run dev engine calls).Ok capacity total := by
  induction calls generalizing m with
  | nil => exact ok
  | cons call calls ih => exact ih (ok.step refuses small call)

end

/-- Slots are on the disk and behind sector 1024, files are before the end of the file system. -/
theorem SharedDisk.Ok.apart {total : ℕ} (ok : m.Ok capacity total)
    (separate : capacity < 1032 ∨ total ≤ 1024) : m.Apart capacity := by
  constructor
  · refine Set.disjoint_left.mpr ?_
    rintro lba ⟨key, slot, found, first, last⟩ shared
    obtain ⟨slotOk, inside⟩ := ok.swap.table found
    have start := slotOk.start
    have data : dataStart = 69 := rfl
    rcases shared with metadata | ⟨i, e, file, mem⟩
    · rw [Set.mem_Iio] at metadata
      omega
    · have within := (ok.placed file mem).2
      rw [ok.total] at within
      omega
  · rintro lba ⟨key, slot, found, first, last⟩
    obtain ⟨slotOk, inside⟩ := ok.swap.table found
    rw [slotOk.count] at last
    exact last.trans_le inside

end Runs

/-! ## A file over the first slot -/

theorem placed_emptyFs (totalSectors : ℕ) : Placed (emptyFs totalSectors) := by
  intro slot e found
  rw [table_emptyFs] at found
  cases found

/-- The VirtIO disk: it keeps its sectors and refuses others. -/
def virtioDisk (capacity : ℕ) : Device (ℕ → Sector) where
  readBlock lba := fun disk =>
    if capacity ≤ lba then .error "LBA out of range" disk else .ok (disk lba) disk
  writeBlock lba buf := fun disk =>
    if capacity ≤ lba then .error "LBA out of range" disk
    else .ok () (Function.update disk lba buf)

theorem virtioDisk_refuses (capacity : ℕ) : Refuses (virtioDisk capacity) capacity := by
  intro lba buf disk outside disk' written
  simp only [virtioDisk, if_pos outside] at written
  cases written

theorem virtioDisk_reliable (capacity : ℕ) : Reliable (virtioDisk capacity) id capacity where
  read _ inside d := ⟨d, if_neg (not_le.mpr inside), rfl⟩
  write _ inside _ _ := ⟨_, if_neg (not_le.mpr inside), rfl⟩

section Overlap

variable {δ : Type} {dev : Device δ} {contents : δ → ℕ → Sector} {capacity total : ℕ}

section

variable (engine : EncryptionEngine) (reliable : Reliable dev contents capacity)
  (room : 1025 ≤ capacity) (large : 1025 ≤ total) (name : String) {data : List UInt8}
  (size : sectorsNeeded data.length = 956) (drives : Drives δ)

include engine reliable room large name size drives

/-- On an empty disk a file of 956 sectors takes the sectors up to 1024. -/
theorem createFile_emptyFs :
    ∃ e, (finalState (createFile dev engine name data ⟨emptyFs total, drives⟩)).fs.table 0 =
        some e ∧ e.extent = Set.Ico 69 1025 := by
  have start : dataStart = 69 := rfl
  have count : max (sectorsNeeded data.length) 1 = 956 := by omega
  have place : (emptyFs total).place data.length = some 69 := by
    have bits : bitmapBits = 16384 := rfl
    rw [DiskFs.place, count, show (emptyFs total).totalSectors = total from rfl]
    refine firstFit_of_free (by omega) (by omega) fun t first _ => ?_
    rw [Bool.not_eq_true', Bool.eq_false_iff, Ne]
    change t ∉ (emptyFs total).used
    rw [used_emptyFs]
    exact not_lt.mpr first
  obtain ⟨drives', created, -⟩ := createFile_ok engine reliable (by omega) name
    (show (emptyFs total).freeSlot = some 0 from rfl) place (by omega) drives
  rw [created, count]
  have inside : (0 : ℕ) < maxFiles := by decide
  refine ⟨_, (congrFun (DiskFs.table_setEntry _ inside _) 0).trans (Function.update_self ..), ?_⟩
  refine (extent_fill _ _ (by decide) ?_)
  exact (le_sectorsNeeded _).trans (Nat.mul_le_mul_right _ size.le)

theorem writeFile_emptyFs :
    ∃ e, (finalState (writeFile dev engine name data ⟨emptyFs total, drives⟩)).fs.table 0 =
        some e ∧ e.extent = Set.Ico 69 1025 := by
  exact createFile_emptyFs engine reliable room large name size drives

end

/-- The first page goes to the first slot if that is on the disk. -/
theorem swapOut_initial (reliable : Reliable dev contents capacity) (room : 1032 ≤ capacity)
    (pid vaddr : ℕ) (data : PageData) (disk : δ) :
    (swapOut dev pid vaddr data (.initial true) disk).2.1.table (.of pid vaddr) =
      some ⟨1024, 8⟩ := by
  obtain ⟨disk', written⟩ :
      ∃ disk', writePage dev ⟨1024, sectorsPerPage⟩ data disk = .ok () disk' := by
    refine forM_ok (fun i inside d => ?_) disk
    rw [mem_range] at inside
    obtain ⟨d', done, -⟩ := reliable.write ((1024 + i) % 2 ^ 64) (by omega) (sectorOf data.val i) d
    exact ⟨d', done⟩
  unfold swapOut Swap.allocSwapSlot
  simp only [Swap.initial, written]
  exact Function.update_self (f := fun _ => none) ..

end Overlap

/-- A file that reaches sector 1024, then a page that is swapped out. -/
theorem not_neverShare {capacity : UInt64} {total : ℕ} (room : 1032 ≤ capacity.toNat)
    (large : 1025 ≤ total) : ¬NeverShare capacity total := by
  intro never
  have reliable := virtioDisk_reliable capacity.toNat
  let file : List UInt8 := replicate 489472 0
  let page : PageData := ⟨replicate 4096 0, length_replicate⟩
  let m : SharedDisk (ℕ → Sector) := ⟨emptyFs total, .initial true, fun _ => sectorOf [] 0⟩
  let engine : EncryptionEngine := ⟨⟨replicate 32 0, length_replicate⟩, false⟩
  have apart := never _ _ (virtioDisk_refuses _) engine m true rfl (placed_emptyFs total) rfl
    [.writeFile "file" file, .swapOut 0 0 page]
  obtain ⟨e, entry, extent⟩ := writeFile_emptyFs engine reliable (by omega) large "file"
    (show sectorsNeeded file.length = 956 by rw [length_replicate]; rfl) ⟨m.disk, []⟩
  have slot := swapOut_initial reliable room 0 0 page
    (m.onFiles (writeFile (virtioDisk capacity.toNat) engine "file" file)).disk
  have shared : 1024 ∈ e.extent := by
    rw [extent]
    decide
  exact Set.disjoint_left.mp apart.disjoint ⟨_, _, slot, Set.mem_Ico.mpr (by decide)⟩
    (.inr ⟨0, e, entry, shared⟩)

/-- Swapped pages and files share no sector in any run exactly when the first slot is not on the
disk, or when the file system ends before it. -/
theorem neverShare_iff (capacity : UInt64) (total : ℕ) :
    NeverShare capacity total ↔ capacity.toNat < 1032 ∨ total ≤ 1024 := by
  constructor
  · intro never
    by_contra shares
    exact not_neverShare (by omega) (by omega) never
  · intro separate δ dev refuses engine m available initial placed size calls
    have start : m.Ok capacity.toNat total := ⟨initial ▸ swapOk_initial available, placed, size⟩
    exact (start.run refuses capacity.toNat_lt calls).apart separate

/-- A file system that has the whole disk shares sectors with swap. -/
theorem not_neverShare_whole_disk : ¬∀ capacity : UInt64, NeverShare capacity capacity.toNat :=
  fun never => not_neverShare (by decide) (by decide) (never 1032)

end SmartOs.Memory
