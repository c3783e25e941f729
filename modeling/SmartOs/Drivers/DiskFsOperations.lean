/-
# The operations of the disk file system

What deleting, creating, overwriting, reading, formatting and mounting do on a device that does
not fail: each keeps the invariant and is an operation of a map from names to bytes. A write over
an old file deletes it first, so it is one only if there is room for the new contents.
-/

import Mathlib.Data.List.TakeWhile
import SmartOs.Drivers.DiskFsStages

namespace SmartOs.Drivers

open CS Math SmartPack List Function DiskFs FileEntry

variable {data : List UInt8} {lba : ℕ}

section Reliable

variable {δ : Type} {dev : Device δ} {engine : EncryptionEngine} {contents : δ → ℕ → Sector}
  {capacity : ℕ} {s : Mounted δ} {name : String}

/-! ## Writing the start of the disk -/

theorem image_entry (fs : DiskFs) (behind : entryStart ≤ lba) :
    fs.image lba = (fs.entries.getD (lba - entryStart) zeroed).toSector := by
  have : entryStart = 5 := rfl
  rw [image, if_neg (by omega), if_neg (by omega)]

theorem image_bitmap (fs : DiskFs) (first : bitmapStart ≤ lba) (last : lba < entryStart) :
    fs.image lba = sectorOf (bitmapBytes fs.bitmap) (lba - bitmapStart) := by
  have : bitmapStart = 1 := rfl
  rw [image, if_neg (by omega), if_pos last]

variable {slot count start size : ℕ} {e : FileEntry} {fs : DiskFs} {v : ℕ → Sector}

theorem applied_syncWrites : applied v (syncWrites fs slot) lba =
      if lba < entryStart ∨ lba = entryStart + slot then fs.image lba else v lba := by
  have constants := layout
  rw [syncWrites, applied_append, ← singleton_append, applied_append]
  change update (applied (update v _ _) _) 0 _ lba = _
  rcases Nat.eq_zero_or_pos lba with rfl | pos
  · rw [update_self]
    rfl
  rw [update_of_ne (by omega), applied_sectorWrites]
  by_cases bitmap : lba < entryStart
  · rw [if_pos (by omega), if_pos (.inl bitmap), image_bitmap _ (by omega) bitmap]
  rw [if_neg (by omega)]
  by_cases here : lba = entryStart + slot
  · subst here
    rw [update_self, if_pos (.inr rfl), image_entry _ (by omega), Nat.add_sub_cancel_left]
  · rw [update_of_ne here, if_neg (by omega)]

theorem syncWrites_lt (inside : slot < maxFiles) : ∀ write ∈ syncWrites fs slot,
    write.1 < dataStart := by
  have constants := layout
  intro write mem
  simp only [syncWrites, sectorWrites, mem_append, mem_cons, mem_map, mem_range, not_mem_nil,
    or_false] at mem
  rcases mem with (rfl | ⟨i, inside, rfl⟩) | rfl <;> simp only <;> omega

/-- After a change of one entry and of the bitmap, the image is complete again. -/
theorem image_of_sync {fs' : DiskFs} (image : ∀ lba < dataStart, v lba = fs.image lba)
    (entries : fs'.entries = fs.entries.set slot e) :
    ∀ lba < dataStart, applied v (syncWrites fs' slot) lba = fs'.image lba := by
  intro lba inside
  rw [applied_syncWrites]
  split
  · rfl
  rename_i kept
  rw [not_or, not_lt] at kept
  rw [image lba inside, image_entry _ kept.1, image_entry _ kept.1, entries,
    getD_eq_getElem?_getD, getD_eq_getElem?_getD, getElem?_set_ne (by omega)]

theorem applied_syncWrites_of_le (slots : slot < maxFiles) (data : dataStart ≤ lba) :
    applied v (syncWrites fs slot) lba = v lba := by
  have constants := layout
  rw [applied_syncWrites, if_neg (by omega)]

theorem image_of_range (image : ∀ lba < dataStart, v lba = fs.image lba) {base : ℕ}
    (inside : base + count ≤ dataStart) :
    (range' base count).map v = (range count).map fun i => fs.image (base + i) := by
  rw [range'_eq_map_range, map_map]
  refine map_congr_left fun i mem => ?_
  have bound : base + i < dataStart := by
    have := mem_range.mp mem
    omega
  exact image _ bound

theorem bitmap_of_image : (((range bitmapSectors).map fun i => fs.image (bitmapStart + i)).flatMap
      Subtype.val).map UInt8.toBitVec = fs.bitmap := by
  have length : (bitmapBytes fs.bitmap).length = bitmapSectors * sectorSize := by
    rw [bitmapBytes, length_map, fs.length_bitmap]
  have sectors : ((range bitmapSectors).map fun i => fs.image (bitmapStart + i)) =
      (range bitmapSectors).map (sectorOf (bitmapBytes fs.bitmap)) := by
    refine map_congr_left fun i mem => ?_
    have inside : i < 4 := mem_range.mp mem
    rw [image_bitmap fs (Nat.le_add_right _ _) (by
      rw [show bitmapStart = 1 from rfl, show entryStart = 5 from rfl]
      omega), Nat.add_sub_cancel_left]
  rw [sectors, flatMap_map, flatMap_sectorOf, length, Nat.sub_self, replicate_zero,
    append_nil, take_of_length_le length.le, bitmapBytes, map_map]
  exact map_id _

theorem entries_of_image : ((range maxFiles).map fun i => fs.image (entryStart + i)).map ofSector =
      fs.entries := by
  have length := fs.length_entries
  refine ext_getElem (by simp [length]) fun i inside bound => ?_
  rw [getElem_map, getElem_map, getElem_range, image_entry fs (Nat.le_add_right _ _),
    Nat.add_sub_cancel_left, ofSector_toSector, getD_eq_getElem?_getD, getElem?_eq_getElem
    bound, Option.getD_some]

theorem zeroed_toSector : zeroed.toSector = sectorOf [] 0 := by
  decide +kernel

/-- What `format` leaves in memory. -/
def emptyFs (totalSectors : ℕ) : DiskFs where
  entries := replicate maxFiles zeroed
  bitmap := setRange (replicate (bitmapSectors * sectorSize) 0#8) 0 dataStart
  totalSectors
  length_entries := length_replicate
  length_bitmap := length_formatted

theorem used_emptyFs (totalSectors : ℕ) : (emptyFs totalSectors).used = Set.Iio dataStart := by
  ext t
  rw [used, Set.mem_ofPred_eq, emptyFs, testBit_setRange (by
    rw [length_replicate]
    decide), testBit_replicate_zero, Set.mem_Iio]
  simp

theorem table_emptyFs (totalSectors : ℕ) : (emptyFs totalSectors).table = fun _ => none := by
  funext slot
  rw [table, emptyFs, getElem?_replicate]
  split
  · rfl
  · rfl

/-! ## Deleting -/

theorem markFree_used :
    (fs.markFree start count).used = fs.used \ Set.Ico start (start + count) := by
  ext t
  rw [used, Set.mem_ofPred_eq, markFree, testBit_clearRange, and_comm]
  rfl

theorem markUsed_used (fs : DiskFs) (inside : start + count ≤ bitmapBits) :
    (fs.markUsed start count).used = fs.used ∪ Set.Ico start (start + count) := by
  ext t
  rw [used, Set.mem_ofPred_eq, markUsed,
    testBit_setRange (by rw [fs.length_bitmap]; exact inside), or_comm]
  rfl

theorem table_of_findIdx (search : fs.entries.findIdx? (·.named name) = some slot) :
    ∃ e, fs.table slot = some e ∧ e.nameStr = name ∧ fs.entries.getD slot zeroed = e := by
  obtain ⟨inside, named, -⟩ := findIdx?_eq_some_iff_getElem.mp search
  rw [FileEntry.named, Bool.and_eq_true, beq_iff_eq] at named
  refine ⟨fs.entries[slot], table_eq_some_iff.mpr
    ⟨getElem?_eq_getElem inside, named.1⟩, named.2, ?_⟩
  rw [getD_eq_getElem?_getD, getElem?_eq_getElem inside, Option.getD_some]

theorem files_of_findIdx_none (search : fs.entries.findIdx? (·.named name) = none) :
    fs.files v name = none := by
  rw [files, DiskFs.lookup, find?_eq_none.mpr fun e mem => ?_, Option.map_none]
  rw [findIdx?_eq_none_iff.mp search e mem]
  exact Bool.false_ne_true

theorem not_overruns (sound : Sound fs v) (found : fs.table slot = some e) : ¬Overruns e := by
  rintro ⟨-, beyond⟩
  have bound := (sound.extent_le found).trans sound.total_le
  have bits : bitmapBits = 16384 := rfl
  omega

/-- Without the file in the slot its sectors are free. -/
theorem gone_used (sound : Sound fs v) (found : fs.table slot = some e)
    (entry : fs.entries.getD slot zeroed = e) : (fs.gone slot).used = fs.used \ e.extent := by
  have bound := (sound.extent_le found).trans sound.total_le
  have bits : bitmapBits = 16384 := rfl
  rw [gone, entry, Nat.mod_eq_of_lt (by omega), Nat.add_sub_cancel_left]
  exact markFree_used

theorem gone_table (fs : DiskFs) (inside : slot < maxFiles) :
    (fs.gone slot).table = update fs.table slot none :=
  table_setEntry _ inside _

/-! ## Creating -/

theorem vacant_of_freeSlot (search : fs.freeSlot = some slot) :
    slot < maxFiles ∧ fs.table slot = none := by
  obtain ⟨inside, inactive, -⟩ := findIdx?_eq_some_iff_getElem.mp search
  refine ⟨fs.length_entries ▸ inside, ?_⟩
  rw [table, getElem?_eq_getElem inside]
  exact Option.filter_some_neg (by simpa using inactive)

theorem freeSlot_isSome (inside : slot < maxFiles) (vacant : fs.table slot = none) :
    fs.freeSlot.isSome := by
  have bound : slot < fs.entries.length := by rwa [fs.length_entries]
  rw [table, getElem?_eq_getElem bound, Option.filter_eq_none_iff] at vacant
  rw [freeSlot, findIdx?_isSome, any_eq_true]
  exact ⟨_, getElem_mem bound, by simpa using vacant _ rfl⟩

theorem place_sound (place : fs.place size = some start) :
    Set.Ico start (start + max (sectorsNeeded size) 1) ⊆
        Set.Ico dataStart (min fs.totalSectors bitmapBits) ∧
      Disjoint (Set.Ico start (start + max (sectorsNeeded size) 1)) fs.used := by
  have run := firstFit_sound place le_rfl (by omega) (fun ne => absurd rfl ne)
  have first := run.low_le
  have last := run.le_high
  constructor
  · rintro t ⟨after, before⟩
    exact ⟨by omega, by omega⟩
  refine Set.disjoint_left.mpr fun t inside marked => ?_
  have free := run.free t inside.1 inside.2
  rw [marked] at free
  cases free

theorem place_bounds (place : fs.place size = some start) :
    dataStart ≤ start ∧ start + max (sectorsNeeded size) 1 ≤ min fs.totalSectors bitmapBits := by
  obtain ⟨within, -⟩ := place_sound place
  have first := (within ⟨le_rfl, by omega⟩).1
  have last := (within (Set.mem_Ico.mpr ⟨Nat.le_sub_one_of_lt
    (by omega : start < start + max (sectorsNeeded size) 1), by omega⟩)).2
  omega

/-- The names of the files: not empty, short enough for an entry and without zero bytes. -/
structure NameOk (name : String) : Prop where
  nonempty : 1 ≤ (strBytes name).length
  short : (strBytes name).length ≤ maxNameLen - 1
  noZero : 0 ∉ strBytes name

theorem nameStr_fill (e : FileEntry) (ok : NameOk name) (size start count : ℕ) :
    (e.fill name size start count).nameStr = name := by
  have whole : (strBytes name).take (maxNameLen - 1) = strBytes name :=
    take_of_length_le ok.short
  have field : (e.fill name size start count).name.val =
      strBytes name ++ replicate (maxNameLen - (strBytes name).length) 0 := by
    change (strBytes name).take (maxNameLen - 1) ++ replicate
      (maxNameLen - ((strBytes name).take (maxNameLen - 1)).length) 0 = _
    rw [whole]
  have bytes : (strBytes name).takeWhile (· != 0) = strBytes name := by
    rw [takeWhile_eq_self_iff]
    intro byte mem
    rw [bne_iff_ne]
    rintro rfl
    exact ok.noZero mem
  have zeros (k : ℕ) : (replicate k (0 : UInt8)).takeWhile (· != 0) = [] := by
    cases k <;> simp
  rw [nameStr, field, takeWhile_append, bytes, if_pos rfl, zeros, append_nil,
    fromUtf8_strBytes, Option.getD_some]

theorem fill_toNat (e : FileEntry) (name : String) (small : start + count ≤ bitmapBits)
    (fits : size ≤ count * sectorSize) : (e.fill name size start count).size.toNat = size ∧
      (e.fill name size start count).startSector.toNat = start ∧
      (e.fill name size start count).sectorCount.toNat = count := by
  have bits : bitmapBits * 512 < 2 ^ 64 := by decide
  rw [show sectorSize = 512 from rfl] at fits
  refine ⟨UInt64.toNat_ofNat_of_lt' ?_, UInt64.toNat_ofNat_of_lt' ?_, UInt64.toNat_ofNat_of_lt' ?_⟩
  all_goals
    change _ < 2 ^ 64
    omega

theorem extent_fill (e : FileEntry) (name : String) (small : start + count ≤ bitmapBits)
    (fits : size ≤ count * sectorSize) :
    (e.fill name size start count).extent = Set.Ico start (start + count) := by
  obtain ⟨-, first, number⟩ := fill_toNat e name small fits
  rw [extent, first, number]

theorem le_sectorsNeeded (size : ℕ) : size ≤ sectorsNeeded size * sectorSize := by
  have : sectorSize = 512 := rfl
  rw [sectorsNeeded, this]
  omega

theorem getD_sectorOf (data : List UInt8) {j : ℕ} (inside : j < data.length) :
    (sectorOf data (j / sectorSize)).val.getD (j % sectorSize) 0 = data[j] := by
  have whole : j / sectorSize * sectorSize + j % sectorSize = j := Nat.div_add_mod' ..
  have short : j % sectorSize < sectorSize := Nat.mod_lt _ (by decide)
  have bound : j % sectorSize <
      ((data.drop (j / sectorSize * sectorSize)).take sectorSize).length := by
    rw [length_take, length_drop]
    omega
  rw [val_sectorOf, getD_eq_getElem?_getD, getElem?_append_left bound, getElem?_take_of_lt short,
    getElem?_drop, whole, getElem?_eq_getElem inside, Option.getD_some]

/-- The sectors of the data, written to an extent, are its contents. -/
theorem content_fill (e : FileEntry) (name : String)
    (small : start + max (sectorsNeeded data.length) 1 ≤ bitmapBits)
    (written : ∀ i < sectorsNeeded data.length, v (start + i) = sectorOf data i) :
    content v (e.fill name data.length start (max (sectorsNeeded data.length) 1)) = data := by
  have fits := le_sectorsNeeded data.length
  have bits : bitmapBits = 16384 := rfl
  have enough := fits.trans (Nat.mul_le_mul_right _ (le_max_left (sectorsNeeded data.length) 1))
  obtain ⟨size, first, number⟩ := fill_toNat e name small enough
  rw [content, size, number]
  refine ext_getElem (by simp) fun j bound inside => ?_
  have round : j / sectorSize < sectorsNeeded data.length :=
    Nat.div_lt_of_lt_mul (by rw [mul_comm]; omega)
  rw [getElem_map, getElem_range, byteAt, if_pos (inside.trans_le enough), first,
    Nat.mod_eq_of_lt (by omega), written _ round, getD_sectorOf data inside]

/-- The sectors that are free once the old file is gone have room for the new one. -/
def Room (fs : DiskFs) (old : FileEntry) (size : ℕ) : Prop :=
  ∃ start, FreeRun (fun t => !testBit fs.bitmap t || decide (t ∈ Set.Ico old.startSector.toNat
    (old.startSector.toNat + old.sectorCount.toNat))) (max (sectorsNeeded size) 1) dataStart
    fs.totalSectors start

theorem place_of_room (sound : Sound fs v) (found : fs.table slot = some e)
    (entry : fs.entries.getD slot zeroed = e) (fits : Room fs e size) :
    ((fs.gone slot).place size).isSome := by
  obtain ⟨start, run⟩ := fits
  have bound : start + max (sectorsNeeded size) 1 ≤ fs.totalSectors := run.le_high
  refine (firstFit_isSome_iff (by omega)).mpr ⟨start, run.low_le, ?_, fun t after before => ?_⟩
  · change _ ≤ dataStart + (min fs.totalSectors bitmapBits - dataStart)
    rw [min_eq_left sound.total_le]
    omega
  have free := run.free t after before
  rw [Bool.or_eq_true, decide_eq_true_eq, Bool.not_eq_true'] at free
  rw [Bool.not_eq_true', Bool.eq_false_iff, Ne]
  change t ∉ (fs.gone slot).used
  rw [gone_used sound found entry]
  rintro ⟨marked, outside⟩
  rcases free with clear | inside
  · rw [used, Set.mem_ofPred_eq, clear] at marked
    cases marked
  · exact outside inside

abbrev Files := String → Option (List UInt8)

/-- The map is that of the files on disk. -/
structure Refines (engine : EncryptionEngine) (contents : δ → ℕ → Sector) (totalSectors : ℕ)
    (s : Mounted δ) (files : Files) : Prop where
  sound : Sound s.fs (view engine contents s.drives)
  files_eq : s.fs.files (view engine contents s.drives) = files
  total_eq : s.fs.totalSectors = totalSectors

variable {totalSectors : ℕ} {files : Files}

variable (reliable : Reliable dev contents capacity) (room : dataStart ≤ capacity)

include reliable room

variable (engine) in
theorem createFile_ok (name : String) (search : fs.freeSlot = some slot)
    (place : fs.place data.length = some start)
    (inside : start + sectorsNeeded data.length ≤ capacity) (drives : Drives δ) :
    let extended := fs.extended slot name data.length start (max (sectorsNeeded data.length) 1)
    ∃ drives', createFile dev engine name data ⟨fs, drives⟩ = .ok () ⟨extended, drives'⟩ ∧
      view engine contents drives' = applied (applied (view engine contents drives)
        (sectorWrites start (sectorsNeeded data.length) (sectorOf data)))
          (syncWrites extended slot) := by
  intro extended
  have slots := (vacant_of_freeSlot search).1
  obtain ⟨drives₁, stored, changed⟩ :=
    writeSectors_ok engine reliable inside (sectorOf data) drives
  rw [writeSectors_eq_writeAll] at stored
  have start_of_disk : ∀ write ∈ syncWrites extended slot, write.1 < capacity :=
    fun write mem => (syncWrites_lt slots write mem).trans_le room
  obtain ⟨drives₂, synced, changed'⟩ := writeAll_ok engine reliable start_of_disk drives₁
  refine ⟨drives₂, ?_, by rw [changed', changed]⟩
  rw [createFile_eq, createPlan, search, place, Plan.run_cons,
    bind_of_ok (onDrives_of_ok stored), Plan.run_cons, bind_of_ok (onDrives_of_ok synced)]
  rfl

section

variable (refines : Refines engine contents totalSectors s files)

include refines

theorem deleteFile_of_found (search : s.fs.entries.findIdx? (·.named name) = some slot) :
    ∃ e drives, s.fs.table slot = some e ∧ e.nameStr = name ∧
      deleteFile dev engine name s = .ok () ⟨s.fs.gone slot, drives⟩ ∧
      Refines engine contents totalSectors ⟨s.fs.gone slot, drives⟩
        (update files name none) := by
  obtain ⟨sound, rfl, rfl⟩ := refines
  obtain ⟨e, found, rfl, entry⟩ := table_of_findIdx search
  have inside := slot_lt found
  obtain ⟨drives, synced, changed⟩ := writeAll_ok engine reliable
    (fun write mem => (syncWrites_lt inside write mem).trans_le room) s.drives
  have total : (s.fs.gone slot).totalSectors = s.fs.totalSectors := rfl
  obtain ⟨sound', files⟩ := sound.remove found total (gone_table _ inside)
    (gone_used sound found entry) (image_of_sync sound.image rfl)
    fun _ data => applied_syncWrites_of_le inside data
  rw [← changed] at sound' files
  refine ⟨e, drives, found, rfl, ?_, sound', files, rfl⟩
  rw [deleteFile_eq dev engine search, entry, if_neg (not_overruns sound found)]
  exact onDrives_of_ok synced

theorem deleteFile_spec :
    deleteFile dev engine name s = .error (.error "File not found") s ∨
    ∃ s', deleteFile dev engine name s = .ok () s' ∧
      Refines engine contents totalSectors s' (update files name none) := by
  cases search : s.fs.entries.findIdx? (·.named name) with
  | none =>
    left
    rw [deleteFile]
    simp [search]
  | some slot =>
    obtain ⟨e, drives, -, -, deleted, refines⟩ := deleteFile_of_found reliable room refines search
    exact .inr ⟨_, deleted, refines⟩

variable (total : totalSectors ≤ capacity) (ok : NameOk name)

include total ok

theorem createFile_of_place (fresh : files name = none) (search : s.fs.freeSlot = some slot)
    (place : s.fs.place data.length = some start) :
    ∃ s', createFile dev engine name data s = .ok () s' ∧
      Refines engine contents totalSectors s' (update files name (some data)) := by
  obtain ⟨sound, rfl, rfl⟩ := refines
  obtain ⟨inside, vacant⟩ := vacant_of_freeSlot search
  have fits : data.length ≤ max (sectorsNeeded data.length) 1 * sectorSize :=
    (le_sectorsNeeded _).trans (Nat.mul_le_mul_right _ (le_max_left ..))
  obtain ⟨within, free⟩ := place_sound place
  obtain ⟨first, last⟩ := place_bounds place
  rw [min_eq_left sound.total_le] at within last
  have small := last.trans sound.total_le
  obtain ⟨drives, created, changed⟩ := createFile_ok engine reliable room name search place
    (by omega) s.drives
  generalize count : max (sectorsNeeded data.length) 1 = n at *
  let old := s.fs.entries.getD slot zeroed
  let e := old.fill name data.length start n
  let fs := s.fs.extended slot name data.length start n
  have extent : e.extent = Set.Ico start (start + n) := extent_fill _ name small fits
  have named : e.nameStr = name := nameStr_fill _ ok _ _ _
  have used : fs.used = s.fs.used ∪ e.extent := by
    rw [extent]
    exact markUsed_used _ small
  have size : e.sectorCount.toNat = max (sectorsNeeded e.size.toNat) 1 := by
    obtain ⟨bytes, -, number⟩ := fill_toNat old name small fits
    exact number.trans (by rw [bytes, count])
  have fresh' : s.fs.files (view engine contents s.drives) e.nameStr = none := by
    rw [named]
    exact fresh
  obtain ⟨sound', files⟩ := sound.add vacant fresh'
    (show fs.totalSectors = s.fs.totalSectors from rfl) (table_setEntry _ inside _) used
    (extent ▸ within) (extent ▸ free) size
    (image_of_sync (v := applied (view engine contents s.drives)
      (sectorWrites start (sectorsNeeded data.length) (sectorOf data))) (fun lba before => by
        rw [applied_sectorWrites, if_neg (by omega), sound.image lba before])
      (show fs.entries = s.fs.entries.set slot e from rfl))
    (fun lba data outside => by
      rw [extent] at outside
      rw [applied_syncWrites_of_le inside data, applied_sectorWrites,
        if_neg fun written => outside ⟨written.1, by omega⟩])
    (by
      subst count
      refine content_fill old name small fun i written => ?_
      rw [applied_syncWrites_of_le inside (by omega), applied_sectorWrites, if_pos (by omega),
        Nat.add_sub_cancel_left])
  rw [← changed] at sound' files
  rw [named] at files
  exact ⟨⟨fs, drives⟩, created, sound', files, rfl⟩

theorem createFile_spec (data : List UInt8) (fresh : files name = none) :
    (∃ e, createFile dev engine name data s = .error e s) ∨
    ∃ s', createFile dev engine name data s = .ok () s' ∧
      Refines engine contents totalSectors s' (update files name (some data)) := by
  cases search : s.fs.freeSlot with
  | none =>
    left
    rw [createFile_eq, createPlan, search]
    exact ⟨_, rfl⟩
  | some slot =>
    cases place : s.fs.place data.length with
    | none =>
      left
      rw [createFile_eq, createPlan, search, place]
      exact ⟨_, rfl⟩
    | some start =>
      exact .inr (createFile_of_place reliable room refines total ok fresh search place)

/-! ## Overwriting -/

/-- A write that replaces a file finds room, so the map changes at the name. Another write may
also fail without a change. -/
theorem writeFile_spec (data : List UInt8)
    (fits : ∀ e, s.fs.lookup name = some e → Room s.fs e data.length) :
    (∃ e, writeFile dev engine name data s = .error e s) ∨
    ∃ s', writeFile dev engine name data s = .ok () s' ∧
      Refines engine contents totalSectors s' (update files name (some data)) := by
  cases search : s.fs.entries.findIdx? (·.named name) with
  | none =>
    have absent : s.fs.entries.any (·.named name) = false := by
      rw [← findIdx?_isSome, search]
      rfl
    have same : writeFile dev engine name data s = createFile dev engine name data s := by
      rw [writeFile, get_bind_apply]
      simp only [absent]
      rfl
    rw [same]
    exact createFile_spec reliable room refines total ok data
      (refines.files_eq ▸ files_of_findIdx_none search)
  | some slot =>
    have present : s.fs.entries.any (·.named name) := by
      rw [← findIdx?_isSome, search]
      rfl
    obtain ⟨e, drives, found, named, deleted, refines'⟩ :=
      deleteFile_of_found reliable room refines search
    have inside := slot_lt found
    obtain ⟨e', found', -, entry⟩ := table_of_findIdx search
    cases found.symm.trans found'
    have old : s.fs.lookup name = some e :=
      refines.sound.lookup_eq_some_iff.mpr ⟨slot, found, named⟩
    obtain ⟨start, place⟩ := Option.isSome_iff_exists.mp
      (place_of_room refines.sound found entry (fits e old))
    have vacant : (s.fs.gone slot).table slot = none := by
      rw [gone_table _ inside, update_self]
    obtain ⟨slot', search'⟩ := Option.isSome_iff_exists.mp (freeSlot_isSome inside vacant)
    obtain ⟨s', created, refines''⟩ := createFile_of_place reliable room refines' total ok
      (update_self ..) search' place
    rw [update_idem] at refines''
    refine .inr ⟨s', ?_, refines''⟩
    rw [writeFile, get_bind_apply]
    simp only [present, if_true]
    rw [bind_of_ok deleted, created]

end

/-! ## Reading -/

variable (name) in
omit room in
theorem readFile_spec (refines : Refines engine contents totalSectors s files)
    (total : totalSectors ≤ capacity) :
    ∃ drives, Refines engine contents totalSectors ⟨s.fs, drives⟩ files ∧
      readFile dev engine name s =
        match files name with
        | some data => .ok data ⟨s.fs, drives⟩
        | none => .error (.error "File not found") ⟨s.fs, drives⟩ := by
  obtain ⟨sound, rfl, rfl⟩ := refines
  rw [files]
  cases search : s.fs.lookup name with
  | none =>
    refine ⟨s.drives, ⟨sound, rfl, rfl⟩, ?_⟩
    rw [readFile, get_bind_apply, show s.fs.entries.find? _ = none from search]
    rfl
  | some e =>
    obtain ⟨slot, found, -⟩ := sound.lookup_eq_some_iff.mp search
    have extent := sound.extent_le found
    have bits : bitmapBits = 16384 := rfl
    have bound := sound.total_le
    have inside : ∀ i ∈ range e.sectorCount.toNat,
        (e.startSector.toNat + i) % 2 ^ 64 < capacity := by
      intro i mem
      have := mem_range.mp mem
      omega
    obtain ⟨drives, same, loaded⟩ :=
      foldlM_readStep engine reliable.read inside (replicate e.size.toNat 0) s
    have read := readEntry_eq_some_iff.mpr
      ⟨readable_of_sized (sound.sized found), Eq.refl (content (view engine contents s.drives) e)⟩
    refine ⟨drives, ⟨same ▸ sound, by rw [same], rfl⟩, ?_⟩
    rw [readFile, get_bind_apply, show s.fs.entries.find? _ = some e from search,
      orThrow_some_bind, loaded, ← readEntry, read]
    rfl

/-! ## Mounting and formatting -/

/-- What is on disk is what is in memory. -/
theorem mount_ok (sound : Sound s.fs (view engine contents s.drives)) :
    ∃ drives, mount dev engine s.drives = .ok s.fs drives := by
  have constants := layout
  obtain ⟨drives₁, super, same₁⟩ :=
    readSectorInternal_ok engine reliable.read (by omega : 0 < capacity) s.drives
  obtain ⟨drives₂, bits, same₂⟩ := readSectors_ok engine reliable.read
    (by omega : bitmapStart + bitmapSectors ≤ capacity) drives₁
  obtain ⟨drives₃, records, same₃⟩ := readSectors_ok engine reliable.read
    (by omega : entryStart + maxFiles ≤ capacity) drives₂
  have first : view engine contents s.drives 0 = s.fs.superblock.toSector :=
    sound.image 0 (by omega)
  refine ⟨drives₃, ?_⟩
  rw [mount, bind_of_ok super, first, Superblock.ofSector_toSector]
  rw [if_neg (by exact fun ne => ne rfl), bind_of_ok bits, bind_of_ok records, pure_apply]
  have small : s.fs.totalSectors < UInt32.size :=
    lt_of_le_of_lt sound.total_le (by decide)
  congr 1
  ext1
  · simp only [same₂, same₁]
    rw [image_of_range sound.image (by decide), entries_of_image]
  · simp only [same₁]
    rw [image_of_range sound.image (by decide), bitmap_of_image]
  · exact UInt32.toNat_ofNat_of_lt' small

variable (engine) in
theorem format_ok (small : totalSectors ≤ bitmapBits) (drives : Drives δ) :
    ∃ fs drives', format dev engine totalSectors drives = .ok fs drives' ∧
      Refines engine contents totalSectors ⟨fs, drives'⟩ fun _ => none := by
  have constants := layout
  obtain ⟨drives₁, super, changed₁⟩ := writeSectorInternal_ok engine reliable
    (by omega : 0 < capacity)
    (Superblock.toSector ⟨diskfsMagic, diskfsVersion, 0, UInt32.ofNat totalSectors⟩) drives
  obtain ⟨drives₂, zeros, changed₂⟩ := writeSectors_ok engine reliable
    (by omega : bitmapStart + bitmapSectors ≤ capacity) (fun _ => sectorOf [] 0) drives₁
  obtain ⟨drives₃, entries, changed₃⟩ := writeSectors_ok engine reliable
    (by omega : entryStart + maxFiles ≤ capacity) (fun _ => sectorOf [] 0) drives₂
  obtain ⟨drives₄, bits, changed₄⟩ := writeSectors_ok engine reliable
    (by omega : bitmapStart + bitmapSectors ≤ capacity)
    (sectorOf (bitmapBytes (emptyFs totalSectors).bitmap)) drives₃
  have image : ∀ lba < dataStart,
      view engine contents drives₄ lba = (emptyFs totalSectors).image lba := by
    intro lba inside
    rw [changed₄, applied_sectorWrites]
    by_cases bitmap : bitmapStart ≤ lba ∧ lba < entryStart
    · rw [if_pos (by omega), image_bitmap _ bitmap.1 bitmap.2]
    rw [if_neg (by omega), changed₃, applied_sectorWrites]
    rcases Nat.eq_zero_or_pos lba with rfl | pos
    · rw [if_neg (by omega), changed₂, applied_sectorWrites, if_neg (by omega), changed₁,
        update_self]
      rfl
    · rw [if_pos (by omega), image_entry _ (by omega), emptyFs, getD_eq_getElem?_getD,
        getElem?_replicate, if_pos (by omega), Option.getD_some, zeroed_toSector]
  have sound : Sound (emptyFs totalSectors) (view engine contents drives₄) := by
    refine ⟨small, ?_, ?_, ?_, image⟩
    · rw [table_emptyFs, used_emptyFs]
      exact Laid.empty
    · intro slot e found
      rw [table_emptyFs] at found
      cases found
    · intro i j e f found
      rw [table_emptyFs] at found
      cases found
  refine ⟨emptyFs totalSectors, drives₄, ?_, sound, ?_, rfl⟩
  · rw [format, bind_of_ok super, bind_of_ok zeros, bind_of_ok entries]
    exact (bind_of_ok bits).trans rfl
  funext name
  rw [Option.eq_none_iff_forall_not_mem]
  intro d mem
  obtain ⟨slot, e, found, -⟩ := sound.files_eq_some_iff.mp mem
  rw [table_emptyFs] at found
  cases found

end Reliable

end SmartOs.Drivers
