/-
# The disk file system

`DiskFs` of `drivers/diskfs.rs`: a superblock, a bitmap of sectors and 64 file entries at the
start of the disk, and files in extents of consecutive sectors behind them. A mounted file
system holds the entries and the bitmap in memory and writes them back after each change.
-/

import SmartOs.CS.Extents
import SmartOs.Drivers.BlockDevice
import SmartOs.Math.Bitmap
import SmartOs.SmartPack.Format

namespace SmartOs.Drivers

open CS Math SmartPack List

def diskfsMagic : UInt32 := 0x534D4654
def diskfsVersion : UInt32 := 1
def maxFiles : ℕ := 64
def bitmapStart : ℕ := 1
def bitmapSectors : ℕ := 4
def entryStart : ℕ := 5
def dataStart : ℕ := 69
def maxNameLen : ℕ := 120
def sectorSize : ℕ := 512

theorem layout : bitmapStart = 1 ∧ bitmapSectors = 4 ∧ entryStart = 5 ∧ dataStart = 69 ∧
    maxFiles = 64 := ⟨rfl, rfl, rfl, rfl, rfl⟩

/-- Sector `i` of the bytes, filled up with zeros. -/
def sectorOf (data : List UInt8) (i : ℕ) : Sector :=
  let chunk := (data.drop (i * sectorSize)).take sectorSize
  ⟨chunk ++ replicate (sectorSize - chunk.length) 0, by
    have short : chunk.length ≤ sectorSize := length_take_le _ _
    rw [length_append, length_replicate]
    exact Nat.add_sub_of_le short⟩

/-! ## Records on disk -/

structure Superblock where
  magic : UInt32
  version : UInt32
  fileCount : UInt32
  totalSectors : UInt32

namespace Superblock

/-- The record in memory order, `reserved` being zero. -/
def toSector (sb : Superblock) : Sector :=
  ⟨toLeBytes 4 sb.magic.toNat ++ (toLeBytes 4 sb.version.toNat ++ (toLeBytes 4 sb.fileCount.toNat ++
    (toLeBytes 4 sb.totalSectors.toNat ++ replicate 496 0))), by
    simp only [length_append, toLeBytes_length, length_replicate]⟩

def ofSector (buf : Sector) : Superblock where
  magic := UInt32.ofNat (ofLeBytes (field 0 4 buf.val))
  version := UInt32.ofNat (ofLeBytes (field 4 4 buf.val))
  fileCount := UInt32.ofNat (ofLeBytes (field 8 4 buf.val))
  totalSectors := UInt32.ofNat (ofLeBytes (field 12 4 buf.val))

end Superblock

structure FileEntry where
  name : Bytes maxNameLen
  flags : UInt32
  size : UInt64
  startSector : UInt64
  sectorCount : UInt64
  reserved : Bytes 360

namespace FileEntry

def zeroed : FileEntry :=
  ⟨⟨replicate maxNameLen 0, length_replicate⟩, 0, 0, 0, 0, ⟨replicate 360 0, length_replicate⟩⟩

/-- The record in memory order. The four bytes before `size` align it; they are never read. -/
def toSector (e : FileEntry) : Sector :=
  ⟨e.name.val ++ (toLeBytes 4 e.flags.toNat ++ (replicate 4 0 ++ (toLeBytes 8 e.size.toNat ++
    (toLeBytes 8 e.startSector.toNat ++ (toLeBytes 8 e.sectorCount.toNat ++ e.reserved.val))))), by
    simp [e.name.property, e.reserved.property, maxNameLen]⟩

def ofSector (buf : Sector) : FileEntry where
  name := ⟨field 0 120 buf.val, length_field (by rw [buf.property]; decide)⟩
  flags := UInt32.ofNat (ofLeBytes (field 120 4 buf.val))
  size := UInt64.ofNat (ofLeBytes (field 128 8 buf.val))
  startSector := UInt64.ofNat (ofLeBytes (field 136 8 buf.val))
  sectorCount := UInt64.ofNat (ofLeBytes (field 144 8 buf.val))
  reserved := ⟨field 152 360 buf.val, length_field (by rw [buf.property])⟩

def isActive (e : FileEntry) : Bool := e.flags == 1

def nameStr (e : FileEntry) : String :=
  (fromUtf8 (e.name.val.takeWhile (· != 0))).getD ""

def nameField (name : String) : Bytes maxNameLen :=
  let bytes := (strBytes name).take (maxNameLen - 1)
  ⟨bytes ++ replicate (maxNameLen - bytes.length) 0, by
    have short : bytes.length ≤ maxNameLen - 1 := length_take_le _ _
    rw [length_append, length_replicate]
    exact Nat.add_sub_of_le (short.trans (Nat.sub_le _ _))⟩

def setName (e : FileEntry) (name : String) : FileEntry := { e with name := nameField name }

/-- The test of the searches for a file. -/
def named (e : FileEntry) (name : String) : Bool := e.isActive && e.nameStr == name

end FileEntry

/-! ## The mounted file system -/

@[ext]
structure DiskFs where
  entries : List FileEntry
  bitmap : List (BitVec 8)
  totalSectors : ℕ
  length_entries : entries.length = maxFiles
  length_bitmap : bitmap.length = bitmapSectors * sectorSize

namespace DiskFs

def bitmapBytes (bitmap : List (BitVec 8)) : List UInt8 := bitmap.map UInt8.ofBitVec

def setEntry (fs : DiskFs) (slot : ℕ) (e : FileEntry) : DiskFs :=
  { fs with
    entries := fs.entries.set slot e
    length_entries := by rw [length_set, fs.length_entries] }

def markUsed (fs : DiskFs) (start count : ℕ) : DiskFs :=
  { fs with
    bitmap := setRange fs.bitmap start count
    length_bitmap := by rw [length_setRange, fs.length_bitmap] }

def markFree (fs : DiskFs) (start count : ℕ) : DiskFs :=
  { fs with
    bitmap := clearRange fs.bitmap start count
    length_bitmap := by rw [length_clearRange, fs.length_bitmap] }

def superblock (fs : DiskFs) : Superblock where
  magic := diskfsMagic
  version := diskfsVersion
  fileCount := UInt32.ofNat (fs.entries.countP FileEntry.isActive)
  totalSectors := UInt32.ofNat fs.totalSectors

end DiskFs

/-- A mounted file system and the drives it is on. -/
structure Mounted (δ : Type) where
  fs : DiskFs
  drives : Drives δ

abbrev DiskM (δ : Type) := EStateM (Abort String) (Mounted δ)

section Operations

variable {δ : Type} (dev : Device δ) (engine : EncryptionEngine)

def onDrives {α : Type} (x : EStateM String (Drives δ) α) : DiskM δ α := fun s =>
  match x s.drives with
  | .ok a drives => .ok a { s with drives }
  | .error e drives => .error (.error e) { s with drives }

theorem length_formatted : (setRange (replicate (bitmapSectors * sectorSize) 0#8) 0
    dataStart).length = bitmapSectors * sectorSize := by
  rw [length_setRange, length_replicate]

theorem length_blank : (replicate 2048 0#8).length = bitmapSectors * sectorSize :=
  length_replicate

def format (totalSectors : ℕ) : EStateM String (Drives δ) DiskFs := do
  writeSectorInternal dev engine 0
    (Superblock.toSector ⟨diskfsMagic, diskfsVersion, 0, UInt32.ofNat totalSectors⟩)
  writeSectors dev engine bitmapStart bitmapSectors fun _ => sectorOf [] 0
  writeSectors dev engine entryStart maxFiles fun _ => sectorOf [] 0
  let bitmap := setRange (replicate (bitmapSectors * sectorSize) 0#8) 0 dataStart
  writeSectors dev engine bitmapStart bitmapSectors (sectorOf (DiskFs.bitmapBytes bitmap))
  return {
    entries := replicate maxFiles FileEntry.zeroed
    bitmap
    totalSectors
    length_entries := length_replicate
    length_bitmap := length_formatted }

def mount : EStateM String (Drives δ) DiskFs := do
  let sb := Superblock.ofSector (← readSectorInternal dev engine 0)
  if sb.magic ≠ diskfsMagic then throw "No filesystem found"
  else
    let bits ← readSectors dev engine bitmapStart bitmapSectors
    let records ← readSectors dev engine entryStart maxFiles
    return {
      entries := records.val.map FileEntry.ofSector
      bitmap := (bits.val.flatMap Subtype.val).map UInt8.toBitVec
      totalSectors := sb.totalSectors.toNat
      length_entries := by rw [length_map, records.property]
      length_bitmap := by
        rw [length_map, length_flatMap, map_congr_left (g := fun _ => sectorSize)
          fun buf _ => buf.property, map_const', sum_replicate, bits.property]
        rfl }

def listFiles : DiskM δ (List String) := do
  return ((← get).fs.entries.filter FileEntry.isActive).map FileEntry.nameStr

/-- Copy sector `i` to its place in the data. An entry with more sectors than its size needs
makes the slice run out of the data. -/
def readStep (entry : FileEntry) (data : List UInt8) (i : ℕ) : DiskM δ (List UInt8) := do
  let buf ← onDrives (readSectorInternal dev engine ((entry.startSector.toNat + i) % 2 ^ 64))
  let offset := i * sectorSize
  if entry.size.toNat < offset then throw .panic
  else
    let copyLen := min (entry.size.toNat - offset) sectorSize
    return data.take offset ++ (buf.val.take copyLen ++ data.drop (offset + copyLen))

def readFile (name : String) : DiskM δ (List UInt8) := do
  let entry ← orThrow ((← get).fs.entries.find? (·.named name)) (.error "File not found")
  (range entry.sectorCount.toNat).foldlM (readStep dev engine entry)
    (replicate entry.size.toNat 0)

def syncEntry (slot : ℕ) : DiskM δ Unit := do
  let fs := (← get).fs
  onDrives (writeSectorInternal dev engine (entryStart + slot)
    (fs.entries.getD slot FileEntry.zeroed).toSector)

def syncBitmap : DiskM δ Unit := do
  let fs := (← get).fs
  onDrives (writeSectors dev engine bitmapStart bitmapSectors
    (sectorOf (DiskFs.bitmapBytes fs.bitmap)))

def syncSuperblock : DiskM δ Unit := do
  let fs := (← get).fs
  onDrives (writeSectorInternal dev engine 0 fs.superblock.toSector)

/-- The writes after each change. -/
def sync (slot : ℕ) : DiskM δ Unit := do
  syncEntry dev engine slot
  syncBitmap dev engine
  syncSuperblock dev engine

/-- The bits of the bitmap. Sectors beyond them are out of its bounds. -/
def bitmapBits : ℕ := bitmapSectors * sectorSize * 8

/-- First fit. The search panics when it comes to the end of the bitmap. -/
def allocSectors (count : ℕ) : DiskM δ (Option ℕ) := fun s =>
  match firstFit (fun sector => !testBit s.fs.bitmap sector) count
    (min s.fs.totalSectors bitmapBits - dataStart) dataStart dataStart 0 with
  | some start => .ok (some start) { s with fs := s.fs.markUsed start count }
  | none => if bitmapBits < s.fs.totalSectors then .error .panic s else .ok none s

/-- The sum wraps around; what is then left of the range may run out of the bitmap. -/
def freeSectors (start count : ℕ) : DiskM δ Unit := fun s =>
  let stop := (start + count) % 2 ^ 64
  if start < stop ∧ bitmapBits < stop then .error .panic s
  else .ok () { s with fs := s.fs.markFree start (stop - start) }

def deleteFile (name : String) : DiskM δ Unit := do
  let fs := (← get).fs
  let slot ← orThrow (fs.entries.findIdx? (·.named name)) (.error "File not found")
  let entry := fs.entries.getD slot FileEntry.zeroed
  freeSectors entry.startSector.toNat entry.sectorCount.toNat
  modify fun s => { s with fs := s.fs.setEntry slot FileEntry.zeroed }
  sync dev engine slot

/-- The entry of a new file in a slot. -/
def FileEntry.fill (e : FileEntry) (name : String) (size start count : ℕ) : FileEntry :=
  { e.setName name with
    flags := 1
    size := UInt64.ofNat size
    startSector := UInt64.ofNat start
    sectorCount := UInt64.ofNat count }

def sectorsNeeded (size : ℕ) : ℕ := (size + sectorSize - 1) / sectorSize

/-- `write_file` after the old file of the name is gone. -/
def createFile (name : String) (data : List UInt8) : DiskM δ Unit := do
  let slot ← orThrow ((← get).fs.entries.findIdx? (!·.isActive)) (.error "No free file entries")
  let needed := sectorsNeeded data.length
  let count := max needed 1
  let start ← orThrow (← allocSectors count) (.error "No free sectors")
  onDrives (writeSectors dev engine start needed (sectorOf data))
  let entry := ((← get).fs.entries.getD slot FileEntry.zeroed).fill name data.length start count
  modify fun s => { s with fs := s.fs.setEntry slot entry }
  sync dev engine slot

def writeFile (name : String) (data : List UInt8) : DiskM δ Unit := do
  let present := (← get).fs.entries.any (·.named name)
  (if present then deleteFile dev engine name else pure () : DiskM δ Unit)
  createFile dev engine name data

end Operations

end SmartOs.Drivers
