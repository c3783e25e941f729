/-
# The calls of the disk file system in stages

What the calls read and write, on any device. A file is read sector by sector into its place. A
call that changes files is a sequence of stages: the memory changes, and then sectors are
written. Devices that do not fail and devices that do run the same stages.
-/

import SmartOs.Drivers.DiskFsInvariant

namespace SmartOs.Drivers

open CS Math SmartPack Function
open List hiding modify

/-! ## Reading a file -/

section Reading

/-- One round of `read_file`, on sectors that can all be read. -/
def copySector (v : ℕ → Sector) (e : FileEntry) (data : List UInt8) (i : ℕ) : Option (List UInt8) :=
  let offset := i * sectorSize
  if e.size.toNat < offset then none
  else
    let copyLen := min (e.size.toNat - offset) sectorSize
    some (data.take offset ++ ((v ((e.startSector.toNat + i) % 2 ^ 64)).val.take copyLen ++
      data.drop (offset + copyLen)))

def readEntry (v : ℕ → Sector) (e : FileEntry) : Option (List UInt8) :=
  (range e.sectorCount.toNat).foldlM (copySector v e) (replicate e.size.toNat 0)

variable {e : FileEntry} {i j : ℕ} {v : ℕ → Sector} {bytes : List UInt8}

theorem byteAt_of_le (behind : i * sectorSize ≤ j) :
    byteAt v e i j = 0 := if_neg (not_lt.mpr behind)

theorem byteAt_succ_of_lt (before : j < i * sectorSize) :
    byteAt v e (i + 1) j = byteAt v e i j := by
  rw [byteAt, byteAt, if_pos before, if_pos (by rw [Nat.succ_mul]; omega)]

theorem byteAt_succ_of_mem (first : i * sectorSize ≤ j) (last : j < (i + 1) * sectorSize) :
    byteAt v e (i + 1) j =
      (v ((e.startSector.toNat + i) % 2 ^ 64)).val.getD (j - i * sectorSize) 0 := by
  rw [byteAt, if_pos last]
  simp only [show sectorSize = 512 from rfl] at first last ⊢
  have round : j / 512 = i := by omega
  have place : j % 512 = j - i * 512 := by omega
  rw [round, place]

theorem drop_range (n : ℕ) : (range n).drop i = (range (n - i)).map (i + ·) := by
  rw [range_eq_range', drop_range', range'_eq_map_range]
  simp

theorem take_eq_map_range (bytes : List UInt8) {n : ℕ} (short : n ≤ bytes.length) :
    bytes.take n = (range n).map fun k => bytes.getD k 0 := by
  refine ext_getElem (by simpa using short) fun k bound bound' => ?_
  rw [length_take] at bound
  rw [getElem_take, getElem_map, getElem_range, getD_eq_getElem?_getD,
    getElem?_eq_getElem (by omega), Option.getD_some]

theorem copySector_eq (inside : i * sectorSize ≤ e.size.toNat) :
    copySector v e ((range e.size.toNat).map (byteAt v e i)) i =
      some ((range e.size.toNat).map (byteAt v e (i + 1))) := by
  have length : (v ((e.startSector.toNat + i) % 2 ^ 64)).val.length = sectorSize :=
    (v ((e.startSector.toNat + i) % 2 ^ 64)).property
  have next : (i + 1) * sectorSize = i * sectorSize + sectorSize := Nat.succ_mul ..
  rw [copySector, if_neg (not_lt.mpr inside), Option.some.injEq,
    ← take_append_drop (i * sectorSize) ((range e.size.toNat).map (byteAt v e (i + 1))),
    ← take_append_drop (min (e.size.toNat - i * sectorSize) sectorSize)
      (((range e.size.toNat).map (byteAt v e (i + 1))).drop (i * sectorSize)), drop_drop]
  -- bytes before the sector, of the sector and behind it
  refine congrArg₂ _ ?_ (congrArg₂ _ ?_ ?_)
  · rw [← map_take, ← map_take, take_range, min_eq_left inside]
    refine map_congr_left fun j before => ?_
    exact (byteAt_succ_of_lt (mem_range.mp before)).symm
  · have count : min (min (e.size.toNat - i * sectorSize) sectorSize)
        (e.size.toNat - i * sectorSize) = min (e.size.toNat - i * sectorSize) sectorSize := by omega
    rw [take_eq_map_range _ (by rw [length]; exact min_le_right ..), ← map_drop,
      drop_range, map_map, ← map_take, take_range, count]
    refine map_congr_left fun k within => ?_
    have bound := mem_range.mp within
    rw [comp_apply, byteAt_succ_of_mem (by omega) (by omega), Nat.add_sub_cancel_left]
  · rw [← map_drop, ← map_drop, drop_range]
    refine map_congr_left fun j behind => ?_
    obtain ⟨k, within, rfl⟩ := mem_map.mp behind
    have bound := mem_range.mp within
    rw [byteAt_of_le (by omega), byteAt_of_le (by omega)]

/-- The entry has at most one sector more than its size fills. -/
def FileEntry.Readable (e : FileEntry) : Prop :=
  ∀ i < e.sectorCount.toNat, i * sectorSize ≤ e.size.toNat

theorem FileEntry.readable_of_sized
    (sized : e.sectorCount.toNat = max (sectorsNeeded e.size.toNat) 1) : e.Readable := by
  intro i inside
  simp only [sectorsNeeded, show sectorSize = 512 from rfl] at sized ⊢
  omega

theorem foldlM_copySector {rounds : ℕ} (inside : ∀ i < rounds, i * sectorSize ≤ e.size.toNat) :
    (range rounds).foldlM (copySector v e) (replicate e.size.toNat 0) =
      some ((range e.size.toNat).map (byteAt v e rounds)) := by
  induction rounds with
  | zero =>
    have zeros : byteAt v e 0 = fun _ => 0 := by
      funext j
      rw [byteAt, if_neg (by omega)]
    rw [zeros, map_const', length_range]
    rfl
  | succ rounds ih =>
    rw [range_succ, foldlM_append, ih fun i less => inside i (by omega)]
    change (copySector v e _ rounds >>= pure) = _
    rw [copySector_eq (inside rounds (by omega))]
    rfl

theorem foldlM_eq_none {α β : Type} {f : β → α → Option β} {items : List α} {item : α}
    (mem : item ∈ items) (fails : ∀ b, f b item = none) (b : β) : items.foldlM f b = none := by
  induction items generalizing b with
  | nil => cases mem
  | cons first items ih =>
    rw [foldlM_cons]
    rcases mem_cons.mp mem with rfl | later
    · rw [fails]
      rfl
    · cases f b first with
      | none => rfl
      | some b' => exact ih later b'

theorem readEntry_eq_some_iff : readEntry v e = some bytes ↔ e.Readable ∧ content v e = bytes := by
  by_cases readable : e.Readable
  · rw [readEntry, foldlM_copySector readable, Option.some.injEq]
    exact (and_iff_right readable).symm
  refine iff_of_false ?_ fun both => readable both.1
  obtain ⟨i, inside, beyond⟩ : ∃ i < e.sectorCount.toNat, e.size.toNat < i * sectorSize := by
    simpa [FileEntry.Readable] using readable
  have nothing : readEntry v e = none := by
    refine foldlM_eq_none (mem_range.mpr inside) (fun data => ?_) _
    rw [copySector, if_pos beyond]
  simp [nothing]

variable {δ : Type} {dev : Device δ} (engine : EncryptionEngine) {contents : δ → ℕ → Sector}
  {capacity : ℕ}

theorem onDrives_of_ok {α : Type} {x : EStateM String (Drives δ) α} {a : α} {s : Mounted δ}
    {drives : Drives δ} (ok : x s.drives = .ok a drives) : onDrives x s = .ok a ⟨s.fs, drives⟩ := by
  rw [onDrives, ok]

/-- Where the sectors can be read, `read_file` is its rounds on what they hold. -/
theorem foldlM_readStep (reads : ∀ lba < capacity, ∀ d, ∃ d',
      dev.readBlock lba d = .ok (contents d lba) d' ∧ contents d' = contents d)
    {rounds : List ℕ} (inside : ∀ i ∈ rounds, (e.startSector.toNat + i) % 2 ^ 64 < capacity)
    (data : List UInt8) (s : Mounted δ) :
    ∃ drives, view engine contents drives = view engine contents s.drives ∧
      rounds.foldlM (readStep dev engine e) data s =
        orThrow (rounds.foldlM (copySector (view engine contents s.drives) e) data) .panic
          ⟨s.fs, drives⟩ := by
  induction rounds generalizing data s with
  | nil => exact ⟨s.drives, rfl, rfl⟩
  | cons i rounds ih =>
    rw [forall_mem_cons] at inside
    obtain ⟨drives, read, same⟩ := readSectorInternal_ok engine reads inside.1 s.drives
    have step : readStep dev engine e data i s =
        orThrow (copySector (view engine contents s.drives) e data i) .panic ⟨s.fs, drives⟩ := by
      rw [readStep, bind_of_ok (onDrives_of_ok read), copySector]
      split
      · rfl
      · rfl
    rw [foldlM_cons, foldlM_cons]
    cases copied : copySector (view engine contents s.drives) e data i with
    | none =>
      rw [copied] at step
      exact ⟨drives, same, bind_of_error step⟩
    | some data' =>
      rw [copied] at step
      obtain ⟨drives', same', rest⟩ := ih inside.2 data' ⟨s.fs, drives⟩
      refine ⟨drives', same'.trans same, (bind_of_ok step).trans ?_⟩
      rw [rest, same]
      rfl

end Reading

/-! ## Stages of a call -/

/-- The memory changes to this, and then sectors are written. -/
structure Stage where
  memory : DiskFs
  writes : List (ℕ × Sector)

/-- The stages of a call that meets no failure, and how it ends then. -/
structure Plan where
  stages : List Stage
  ending : Except (Abort String) Unit

variable (fs : DiskFs)

def syncWrites (slot : ℕ) : List (ℕ × Sector) :=
  (entryStart + slot, (fs.entries.getD slot FileEntry.zeroed).toSector) ::
    sectorWrites bitmapStart bitmapSectors (sectorOf (DiskFs.bitmapBytes fs.bitmap)) ++
    [(0, fs.superblock.toSector)]

namespace DiskFs

def freeSlot : Option ℕ := fs.entries.findIdx? (!·.isActive)

/-- Where a file of the size goes. -/
def place (size : ℕ) : Option ℕ :=
  firstFit (fun sector => !testBit fs.bitmap sector) (max (sectorsNeeded size) 1)
    (min fs.totalSectors bitmapBits - dataStart) dataStart dataStart 0

/-- Freeing the sectors of the entry runs out of the bitmap. -/
def Overruns (e : FileEntry) : Prop :=
  e.startSector.toNat < (e.startSector.toNat + e.sectorCount.toNat) % 2 ^ 64 ∧
    bitmapBits < (e.startSector.toNat + e.sectorCount.toNat) % 2 ^ 64
  deriving Decidable

/-- The memory without the file in the slot. -/
def gone (slot : ℕ) : DiskFs :=
  let e := fs.entries.getD slot FileEntry.zeroed
  (fs.markFree e.startSector.toNat ((e.startSector.toNat + e.sectorCount.toNat) % 2 ^ 64 -
    e.startSector.toNat)).setEntry slot FileEntry.zeroed

/-- What is in memory after a file is created. -/
def extended (slot : ℕ) (name : String) (size start count : ℕ) : DiskFs :=
  (fs.markUsed start count).setEntry slot
    ((fs.entries.getD slot FileEntry.zeroed).fill name size start count)

end DiskFs

def createPlan (name : String) (data : List UInt8) : Plan :=
  match fs.freeSlot with
  | none => ⟨[], .error (.error "No free file entries")⟩
  | some slot =>
    match fs.place data.length with
    | none =>
      ⟨[], .error (if bitmapBits < fs.totalSectors then .panic else .error "No free sectors")⟩
    | some start =>
      let count := max (sectorsNeeded data.length) 1
      let extended := fs.extended slot name data.length start count
      ⟨[⟨fs.markUsed start count,
          sectorWrites start (sectorsNeeded data.length) (sectorOf data)⟩,
        ⟨extended, syncWrites extended slot⟩], .ok ()⟩

def writePlan (name : String) (data : List UInt8) : Plan :=
  match fs.entries.findIdx? (·.named name) with
  | none => createPlan fs name data
  | some slot =>
    if DiskFs.Overruns (fs.entries.getD slot FileEntry.zeroed) then ⟨[], .error .panic⟩
    else
      let rest := createPlan (fs.gone slot) name data
      ⟨⟨fs.gone slot, syncWrites (fs.gone slot) slot⟩ :: rest.stages, rest.ending⟩

section Plans

variable {δ α β : Type} (dev : Device δ) (engine : EncryptionEngine)

def runStages : List Stage → DiskM δ Unit
  | [] => pure ()
  | stage :: stages => do
    modify fun s => { s with fs := stage.memory }
    onDrives (writeAll dev engine stage.writes)
    runStages stages

def Plan.run (plan : Plan) : DiskM δ Unit := do
  runStages dev engine plan.stages
  MonadExcept.ofExcept plan.ending

/-- The memory stays the same while sectors are written. -/
theorem onDrives_bind_congr {x : EStateM String (Drives δ) α} {f g : α → DiskM δ β}
    {s : Mounted δ} (same : ∀ a drives, f a ⟨s.fs, drives⟩ = g a ⟨s.fs, drives⟩) :
    (onDrives x >>= f) s = (onDrives x >>= g) s := by
  simp only [bind, EStateM.bind, onDrives]
  cases x s.drives with
  | ok a drives => exact same a drives
  | error e drives => rfl

theorem onDrives_bind (x : EStateM String (Drives δ) α) (f : α → EStateM String (Drives δ) β) :
    onDrives (x >>= f) = onDrives x >>= fun a => onDrives (f a) := by
  funext s
  simp only [onDrives, bind, EStateM.bind]
  cases x s.drives <;> rfl

theorem Plan.run_cons (stage : Stage) (stages : List Stage) (ending : Except (Abort String) Unit)
    (s : Mounted δ) : Plan.run dev engine ⟨stage :: stages, ending⟩ s =
      (onDrives (writeAll dev engine stage.writes) >>= fun _ =>
        Plan.run dev engine ⟨stages, ending⟩) ⟨stage.memory, s.drives⟩ := by
  simp only [Plan.run, runStages, bind_assoc]
  rfl

theorem finalState_onDrives (x : EStateM String (Drives δ) α) (s : Mounted δ) :
    (finalState (onDrives x s)).fs = s.fs := by
  unfold onDrives
  cases x s.drives <;> rfl

/-- Whichever write fails, the memory is the first one or that of a stage. -/
theorem Plan.run_invariant {P : DiskFs → Prop} {plan : Plan}
    (stages : ∀ stage ∈ plan.stages, P stage.memory) {s : Mounted δ} (start : P s.fs) :
    P (finalState (plan.run dev engine s)).fs := by
  obtain ⟨list, ending⟩ := plan
  induction list generalizing s with
  | nil => cases ending <;> exact start
  | cons stage rest ih =>
    obtain ⟨now, later⟩ := forall_mem_cons.mp stages
    rw [run_cons]
    have memory := finalState_onDrives (writeAll dev engine stage.writes) ⟨stage.memory, s.drives⟩
    cases written : onDrives (writeAll dev engine stage.writes) ⟨stage.memory, s.drives⟩ with
    | error e t =>
      rw [written] at memory
      rw [bind_of_error written]
      exact memory ▸ now
    | ok _ t =>
      rw [written] at memory
      rw [bind_of_ok written]
      exact ih (memory ▸ now) later

theorem sync_eq (slot : ℕ) (s : Mounted δ) :
    sync dev engine slot s = onDrives (writeAll dev engine (syncWrites s.fs slot)) s := by
  rw [syncWrites, cons_append, writeAll_cons, writeAll_append, ← writeSectors_eq_writeAll,
    writeAll_singleton]
  simp only [onDrives_bind]
  refine onDrives_bind_congr fun _ drives => ?_
  exact onDrives_bind_congr fun _ drives => rfl

theorem allocSectors_of_place (size : ℕ) (s : Mounted δ) :
    allocSectors (max (sectorsNeeded size) 1) s =
      match s.fs.place size with
      | some start => .ok (some start) ⟨s.fs.markUsed start (max (sectorsNeeded size) 1), s.drives⟩
      | none => if bitmapBits < s.fs.totalSectors then .error .panic s else .ok none s := by
  cases firstFit (fun sector => !testBit s.fs.bitmap sector) (max (sectorsNeeded size) 1)
    (min s.fs.totalSectors bitmapBits - dataStart) dataStart dataStart 0 <;> rfl

theorem createFile_eq (name : String) (data : List UInt8) (s : Mounted δ) :
    createFile dev engine name data s = (createPlan s.fs name data).run dev engine s := by
  rw [createFile, get_bind_apply, createPlan, DiskFs.freeSlot]
  cases s.fs.entries.findIdx? (!·.isActive) with
  | none => rfl
  | some slot =>
    rw [orThrow_some_bind]
    have search := allocSectors_of_place data.length s
    cases place : s.fs.place data.length with
    | none =>
      simp only [place] at search
      split at search
      · rename_i beyond
        rw [bind_of_error search]
        simp only [if_pos beyond]
        rfl
      · rename_i inside
        rw [bind_of_ok search]
        simp only [if_neg inside]
        rfl
    | some start =>
      simp only [place] at search
      rw [bind_of_ok search, orThrow_some_bind, writeSectors_eq_writeAll, Plan.run_cons]
      -- the data is written, and then the entry is made
      refine onDrives_bind_congr fun _ drives => ?_
      rw [get_bind_apply, bind_of_ok (modify_apply _ _), sync_eq, Plan.run_cons]
      exact (congrFun bind_pure_unit _).symm

theorem deleteFile_eq {name : String} {slot : ℕ} {s : Mounted δ}
    (search : s.fs.entries.findIdx? (·.named name) = some slot) : deleteFile dev engine name s =
      if DiskFs.Overruns (s.fs.entries.getD slot FileEntry.zeroed) then .error .panic s
      else onDrives (writeAll dev engine (syncWrites (s.fs.gone slot) slot))
        ⟨s.fs.gone slot, s.drives⟩ := by
  rw [deleteFile, get_bind_apply, search, orThrow_some_bind, DiskFs.gone]
  generalize s.fs.entries.getD slot FileEntry.zeroed = e
  split
  · rename_i overruns
    have panics : freeSectors e.startSector.toNat e.sectorCount.toNat s = .error .panic s :=
      if_pos overruns
    rw [bind_of_error panics]
  · rename_i inside
    have freed : freeSectors e.startSector.toNat e.sectorCount.toNat s =
        .ok () ⟨s.fs.markFree e.startSector.toNat ((e.startSector.toNat + e.sectorCount.toNat) %
          2 ^ 64 - e.startSector.toNat), s.drives⟩ := if_neg inside
    rw [bind_of_ok freed, bind_of_ok (modify_apply _ _), sync_eq]

theorem writeFile_eq (name : String) (data : List UInt8) (s : Mounted δ) :
    writeFile dev engine name data s = (writePlan s.fs name data).run dev engine s := by
  have present : s.fs.entries.any (·.named name) =
      (s.fs.entries.findIdx? (·.named name)).isSome := findIdx?_isSome.symm
  rw [writeFile, get_bind_apply, present, writePlan]
  cases search : s.fs.entries.findIdx? (·.named name) with
  | none => exact createFile_eq dev engine name data s
  | some slot =>
    have deleted := deleteFile_eq dev engine search
    change (deleteFile dev engine name >>= fun _ => createFile dev engine name data) s = _
    by_cases overruns : DiskFs.Overruns (s.fs.entries.getD slot FileEntry.zeroed)
    · rw [if_pos overruns] at deleted
      rw [bind_of_error deleted]
      simp only [if_pos overruns]
      rfl
    rw [if_neg overruns] at deleted
    simp only [if_neg overruns]
    rw [Plan.run_cons, bind_congr_apply deleted]
    exact onDrives_bind_congr fun _ drives => createFile_eq dev engine name data _

end Plans

end SmartOs.Drivers
