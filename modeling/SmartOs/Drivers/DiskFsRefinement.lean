/-
# The disk file system is a map

From formatting on, over every sequence of calls on a device that does not fail, the file system
behaves as a map from names to bytes, and memory, bitmap, extents and disk agree. The condition
is that every write over an old file has room for the new contents. Without it the old file is
lost when the write fails.
-/

import SmartOs.CS.Run
import SmartOs.Drivers.DiskFsOperations

namespace SmartOs.Drivers

open CS Math SmartPack

/-! ## Calls -/

inductive Op where
  | write (name : String) (data : List UInt8)
  | delete (name : String)
  | read (name : String)

namespace Op

def name : Op → String
  | write name _ => name
  | delete name => name
  | read name => name

/-- What a successful call does to the map. -/
def apply (files : Files) : Op → Files
  | write name data => Function.update files name (some data)
  | delete name => Function.update files name none
  | read _ => files

/-- A write over an old file has room for the new contents. -/
def Roomy (fs : DiskFs) : Op → Prop
  | write name data => ∀ e, fs.entries.find? (·.named name) = some e → Room fs e data.length
  | _ => True

variable {δ : Type} (dev : Device δ) (engine : EncryptionEngine)

/-- A call, with the data of a read. -/
def run : Op → DiskM δ (Option (List UInt8))
  | write name data => do
    writeFile dev engine name data
    return none
  | delete name => do
    deleteFile dev engine name
    return none
  | read name => do
    return some (← readFile dev engine name)

/-- A call on the file system and, if it succeeds, on the map. -/
def next (state : Mounted δ × Files) (op : Op) : Mounted δ × Files :=
  match op.run dev engine state.1 with
  | .ok _ s => (s, op.apply state.2)
  | .error _ s => (s, state.2)

/-- Calls with proper names and room. -/
def Good (state : Mounted δ × Files) (op : Op) : Prop := NameOk op.name ∧ op.Roomy state.1.fs

end Op

section Runs

variable {δ : Type} {dev : Device δ} {engine : EncryptionEngine} {contents : δ → ℕ → Sector}
  {capacity totalSectors : ℕ} {s : Mounted δ} {files : Files}

theorem refines_next (reliable : Reliable dev contents capacity) (room : dataStart ≤ capacity)
    (total : totalSectors ≤ capacity) {op : Op}
    (refines : Refines engine contents totalSectors s files) (good : op.Good (s, files)) :
    Refines engine contents totalSectors (op.next dev engine (s, files)).1
      (op.next dev engine (s, files)).2 := by
  cases op with
  | write name data =>
    have proper : NameOk name := good.1
    rcases writeFile_spec reliable room refines total proper data good.2 with
      ⟨e, failed⟩ | ⟨s', written, refines'⟩
    · rw [Op.next, Op.run, bind_of_error failed]
      exact refines
    · rw [Op.next, Op.run, bind_of_ok written]
      exact refines'
  | delete name =>
    rcases deleteFile_spec reliable room refines with failed | ⟨s', deleted, refines'⟩
    · rw [Op.next, Op.run, bind_of_error failed]
      exact refines
    · rw [Op.next, Op.run, bind_of_ok deleted]
      exact refines'
  | read name =>
    obtain ⟨drives, unread, result⟩ := readFile_spec name reliable refines total
    split at result
    · rw [Op.next, Op.run, bind_of_ok result]
      exact unread
    · rw [Op.next, Op.run, bind_of_error result]
      exact unread

/-! ## The refinement -/

/-- The file system behaves as the map, and everything in it is consistent. -/
structure BehavesAs (dev : Device δ) (engine : EncryptionEngine) (totalSectors : ℕ) (s : Mounted δ)
    (files : Files) : Prop where
  /-- A file is read as it was last written, and other files are not there. -/
  reads : ∀ name, ∃ s', readFile dev engine name s =
    match files name with
    | some data => .ok data s'
    | none => .error (.error "File not found") s'
  disjoint : ∀ i j e f, s.fs.table i = some e → s.fs.table j = some f → i ≠ j →
    Disjoint e.extent f.extent
  inside : ∀ slot e, s.fs.table slot = some e → e.extent ⊆ Set.Ico dataStart totalSectors
  bitmap : ∀ t, testBit s.fs.bitmap t ↔
    t < dataStart ∨ ∃ slot e, s.fs.table slot = some e ∧ t ∈ e.extent
  /-- Mounting the disk gives the same entries and bitmap. -/
  mounts : ∃ drives, mount dev engine s.drives = .ok s.fs drives

theorem behavesAs_of_refines (reliable : Reliable dev contents capacity)
    (room : dataStart ≤ capacity) (total : totalSectors ≤ capacity)
    (refines : Refines engine contents totalSectors s files) :
    BehavesAs dev engine totalSectors s files := by
  have laid := refines.sound.laid
  rw [refines.total_eq] at laid
  refine ⟨fun name => ?_, fun _ _ _ _ => laid.disjoint, fun _ _ => laid.inside,
    fun t => laid.used_iff, mount_ok reliable room refines.sound⟩
  obtain ⟨drives, -, result⟩ := readFile_spec name reliable refines total
  exact ⟨⟨s.fs, drives⟩, result⟩

/-- Formatting succeeds, and after every sequence of calls in which no write over an old file
lacks room, the file system behaves as the map that the successful calls make. -/
theorem behavesAs_map (engine : EncryptionEngine) (reliable : Reliable dev contents capacity)
    (room : dataStart ≤ capacity) (total : totalSectors ≤ capacity)
    (small : totalSectors ≤ 16384) (drives : Drives δ) :
    ∃ fs drives', format dev engine totalSectors drives = .ok fs drives' ∧
      ∀ ops s files, Run (Guarded Op.Good fun state op state' => op.next dev engine state = state')
          (⟨fs, drives'⟩, fun _ => none) ops (s, files) →
        BehavesAs dev engine totalSectors s files := by
  obtain ⟨fs, drives', formatted, start⟩ := format_ok engine reliable room small drives
  refine ⟨fs, drives', formatted, fun ops s files run => ?_⟩
  let inv (state : Mounted δ × Files) : Prop :=
    Refines engine contents totalSectors state.1 state.2
  have refines : inv (s, files) := by
    refine run.invariant ?_ start
    rintro ⟨s, files⟩ op state' ⟨good, rfl⟩ refines
    exact refines_next reliable room total refines good
  exact behavesAs_of_refines reliable room total refines

end Runs

/-! ## A disk in memory -/

/-- A device that is an array of sectors. -/
def memory : Device (ℕ → Sector) where
  readBlock lba d := .ok (d lba) d
  writeBlock lba buf d := .ok () (Function.update d lba buf)

theorem memory_reliable (capacity : ℕ) : Reliable memory (fun d => d) capacity where
  read _ _ d := ⟨d, rfl, rfl⟩
  write lba _ buf d := ⟨Function.update d lba buf, rfl, rfl⟩

def plain : EncryptionEngine := ⟨⟨List.replicate 32 0, List.length_replicate⟩, false⟩

def blank : Drives (ℕ → Sector) := ⟨fun _ => sectorOf [] 0, []⟩

/-- The file system after formatting the blank disk. -/
@[irreducible] def formatted (totalSectors : ℕ) : Mounted (ℕ → Sector) :=
  match format memory plain totalSectors blank with
  | .ok fs drives => ⟨fs, drives⟩
  | .error _ drives => ⟨⟨List.replicate maxFiles FileEntry.zeroed, List.replicate 2048 0, 0,
      List.length_replicate, length_blank⟩, drives⟩

theorem format_memory {totalSectors : ℕ} (small : totalSectors ≤ bitmapBits) :
    format memory plain totalSectors blank =
      .ok (formatted totalSectors).fs (formatted totalSectors).drives := by
  obtain ⟨fs, drives, done, -⟩ := format_ok plain (memory_reliable dataStart) le_rfl small blank
  rw [formatted, done]

/-- The calls and the map, from formatting on. -/
@[irreducible] def after (totalSectors : ℕ) (ops : List Op) : Mounted (ℕ → Sector) × Files :=
  ops.foldl (Op.next memory plain) (formatted totalSectors, fun _ => none)

instance (name : String) : Decidable (NameOk name) :=
  decidable_of_iff (1 ≤ (strBytes name).length ∧ (strBytes name).length ≤ maxNameLen - 1 ∧
      0 ∉ strBytes name)
    ⟨fun ⟨nonempty, short, noZero⟩ => ⟨nonempty, short, noZero⟩,
      fun ok => ⟨ok.nonempty, ok.short, ok.noZero⟩⟩

/-- The search of the file system decides whether there is room. -/
theorem room_iff (fs : DiskFs) (old : FileEntry) (size : ℕ) : Room fs old size ↔
    (firstFit (fun t => !testBit fs.bitmap t || decide (t ∈ Set.Ico old.startSector.toNat
      (old.startSector.toNat + old.sectorCount.toNat))) (max (sectorsNeeded size) 1)
      (fs.totalSectors - dataStart) dataStart dataStart 0).isSome := by
  have pos : 0 < max (sectorsNeeded size) 1 := by omega
  rw [firstFit_isSome_iff pos]
  refine exists_congr fun start => ⟨fun run => ⟨run.low_le, ?_, run.free⟩,
    fun run => ⟨run.low_le, ?_, run.free⟩⟩
  · have := run.le_high
    omega
  · have low := run.low_le
    have high := run.le_high
    omega

instance (fs : DiskFs) (old : FileEntry) (size : ℕ) : Decidable (Room fs old size) :=
  decidable_of_iff' _ (room_iff fs old size)

instance (fs : DiskFs) : (op : Op) → Decidable (op.Roomy fs)
  | .write name data =>
    match search : fs.entries.find? (·.named name) with
    | none => isTrue fun e found => by
      rw [search] at found
      cases found
    | some e => decidable_of_iff (Room fs e data.length)
      ⟨fun room f found => by
        rw [search] at found
        cases found
        exact room, fun rooms => rooms e search⟩
  | .delete _ => isTrue trivial
  | .read _ => isTrue trivial

instance {δ : Type} (state : Mounted δ × Files) (op : Op) : Decidable (op.Good state) :=
  inferInstanceAs (Decidable (NameOk op.name ∧ op.Roomy state.1.fs))

/-- A file that is replaced by a shorter one, and one that is deleted. -/
def calls : List Op :=
  [.write "a" (List.replicate 513 7), .write "b" [], .write "a" [1, 2], .read "a", .delete "b"]

theorem run_calls : Run (Guarded Op.Good fun state op state' => op.next memory plain state = state')
    (formatted 128, fun _ => none) calls (after 128 calls) := by
  rw [after]
  exact Run.guarded_foldl (by decide +kernel)

theorem behavesAs_map_of_calls : ∃ fs drives s files,
    format memory plain 128 blank = .ok fs drives ∧
      Run (Guarded Op.Good fun state op state' => op.next memory plain state = state')
        (⟨fs, drives⟩, fun _ => none) calls (s, files) ∧
      BehavesAs memory plain 128 s files ∧ files "a" = some [1, 2] ∧ files "b" = none := by
  have done := format_memory (by decide : 128 ≤ bitmapBits)
  obtain ⟨fs, drives, done', behaves⟩ :=
    behavesAs_map plain (memory_reliable 128) (by decide) le_rfl (by decide) blank
  rw [done] at done'
  obtain ⟨rfl, rfl⟩ := done'
  exact ⟨_, _, (after 128 calls).1, (after 128 calls).2, done, run_calls,
    behaves calls _ _ run_calls, by decide +kernel, by decide +kernel⟩

/-- A file of one sector on a disk with one sector for data, replaced by a longer one. -/
def lossy : List Op := [.write "a" [1], .write "a" (List.replicate 513 0), .write "b" []]

/-- The second write fails and the old file is gone, as the write of another file shows. -/
theorem overwritten_file_lost : ∃ fs drives s files, format memory plain 70 blank = .ok fs drives ∧
      Run (Guarded (fun _ op => NameOk op.name)
          fun state op state' => op.next memory plain state = state')
        (⟨fs, drives⟩, fun _ => none) lossy (s, files) ∧
      files "a" = some [1] ∧ files "b" = some [] ∧ ¬BehavesAs memory plain 70 s files := by
  have done := format_memory (by decide : 70 ≤ bitmapBits)
  have run : Run (Guarded (fun _ op => NameOk op.name)
      fun state op state' => op.next memory plain state = state')
      (formatted 70, fun _ => none) lossy (after 70 lossy) := by
    rw [after]
    exact Run.guarded_foldl (by decide +kernel)
  have stored : (after 70 lossy).2 "a" = some [1] := by decide +kernel
  have gone : (after 70 lossy).1.fs.entries.find? (·.named "a") = none :=
    Option.isNone_iff_eq_none.mp (by decide +kernel)
  refine ⟨_, _, (after 70 lossy).1, (after 70 lossy).2, done, run, stored, by decide +kernel,
    fun behaves => ?_⟩
  obtain ⟨s', result⟩ := behaves.reads "a"
  rw [stored, readFile, get_bind_apply] at result
  simp only [gone] at result
  cases result

end SmartOs.Drivers
